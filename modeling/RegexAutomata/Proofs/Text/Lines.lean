/-
Where lines of text are cut.

A carriage return and a line feed behind it are cut as one. When line ends have been made uniform,
there are no carriage returns, so this makes no difference.

* `Text.cutLines` — the lines of any text;
* `Text.cutLines_eq_splitLines` — those of a text without carriage returns;
* `Text.cutLines_flatMap` — lines that hold no separators are found again, one for one, in the text
  that has them with a line feed behind each.
-/
import RegexAutomata.Text.Lines
import Mathlib.Data.List.Basic

namespace RegexAutomata.Text

variable {c : CodePoint} {t line : Text}

/-! ### Carriage returns -/

/-- The lines of a text, in which a carriage return and a line feed part lines once. -/
def cutLines : Text → List Text
  | [] => []
  | [c] => consLine c []
  | c :: d :: rest =>
    if c = '\r' ∧ d = '\n' then [] :: cutLines rest else consLine c (cutLines (d :: rest))

theorem cutLines_cons (hc : c ≠ '\r') (t : Text) : cutLines (c :: t) = consLine c (cutLines t) := by
  cases t with
  | nil => rfl
  | cons d rest => rw [cutLines, if_neg fun h => hc h.1]

theorem cutLines_eq_splitLines (h : ∀ c ∈ t, c ≠ CodePoint.ofChar '\r') :
    cutLines t = splitLines t := by
  induction t with
  | nil => rfl
  | cons c t ih =>
    obtain ⟨hc, ht⟩ := List.forall_mem_cons.mp h
    rw [cutLines_cons hc, ih ht]
    rfl

/-- Uniform line ends are line feeds, and all else was there before and is no carriage return. -/
theorem forall_mem_uniformLineEnds {p : CodePoint → Prop} (hfeed : p '\n')
    (h : ∀ c ∈ t, c ≠ CodePoint.ofChar '\r' → p c) : ∀ c ∈ uniformLineEnds t, p c := by
  have hfold (s : Bool × Text) (hs : ∀ c ∈ s.2, p c) : ∀ c ∈ (t.foldl uniformStep s).2, p c := by
    induction t generalizing s with
    | nil => exact hs
    | cons d t ih =>
      obtain ⟨hd, ht⟩ := List.forall_mem_cons.mp h
      refine ih ht _ ?_
      rw [uniformStep]
      split_ifs with hreturn
      · exact List.forall_mem_cons.mpr ⟨hfeed, hs⟩
      · exact hs
      · exact List.forall_mem_cons.mpr ⟨hd hreturn, hs⟩
  intro c hc
  exact hfold (false, []) (fun _ hmem => absurd hmem List.not_mem_nil) c (List.mem_reverse.mp hc)

theorem cutLines_uniformLineEnds (t : Text) :
    cutLines (uniformLineEnds t) = splitLines (uniformLineEnds t) :=
  cutLines_eq_splitLines (forall_mem_uniformLineEnds (by decide) fun _ _ hc => hc)

/-! ### Lines that hold no separators -/

/-- No separator is in the text. -/
def IsLine (t : Text) : Prop := ∀ c ∈ t, isLineSeparator c = false

/-- The lines hold all of a text but its separators. -/
theorem flatten_splitLines (t : Text) :
    (splitLines t).flatten = t.filter fun c => !isLineSeparator c := by
  have hcons (c : CodePoint) (lines : List Text) : (consLine c lines).flatten =
      if isLineSeparator c then lines.flatten else c :: lines.flatten := by
    unfold consLine
    split_ifs
    · rfl
    · split <;> rfl
  induction t with
  | nil => rfl
  | cons c t ih =>
    have hsplit : splitLines (c :: t) = consLine c (splitLines t) := rfl
    rw [hsplit, hcons, ih]
    by_cases hc : isLineSeparator c = true
    · simp [hc]
    · simp [hc]

theorem mem_of_mem_splitLines (hline : line ∈ splitLines t) (hc : c ∈ line) : c ∈ t := by
  have hflat : c ∈ (splitLines t).flatten := List.mem_flatten.mpr ⟨line, hline, hc⟩
  rw [flatten_splitLines] at hflat
  exact List.mem_of_mem_filter hflat

theorem ne_return_of_isLineSeparator (h : isLineSeparator c = false) : c ≠ '\r' := by
  rintro rfl
  cases h

theorem cutLines_append (h : line.IsLine) (t : Text) :
    cutLines (line ++ CodePoint.ofChar '\n' :: t) = line :: cutLines t := by
  induction line with
  | nil => exact cutLines_cons (by decide) t
  | cons c line ih =>
    obtain ⟨hc, hline⟩ := List.forall_mem_cons.mp h
    rw [List.cons_append, cutLines_cons (ne_return_of_isLineSeparator hc), ih hline, consLine,
      if_neg (by simp [hc])]

/-- Lines with a line feed behind each are cut behind each of them. -/
theorem cutLines_flatMap {lines : List Text} (h : ∀ line ∈ lines, line.IsLine) :
    cutLines (lines.flatMap fun line => line ++ "\n") = lines := by
  induction lines with
  | nil => rfl
  | cons line lines ih =>
    obtain ⟨hline, hlines⟩ := List.forall_mem_cons.mp h
    have hfirst : (line :: lines).flatMap (fun line => line ++ ofString "\n") =
        line ++ CodePoint.ofChar '\n' :: lines.flatMap fun line => line ++ ofString "\n" := by
      rw [List.flatMap_cons, List.append_assoc]
      rfl
    rw [hfirst, cutLines_append hline, ih hlines]

end RegexAutomata.Text
