/-
How much of an expression with an error can be kept.

A text is viable if it can be completed to an expression from which an automaton is built. Wherever a
scanner stands, a symbol and the parentheses that are missing complete the text; where it finds an
error, no text that begins in the same way has any use.

* `Scanner.run_completion` — what completes a text;
* `Scanner.run_eq_error` — the scanner has read a viable text when it finds an error, and one code
  point more is not viable;
* `viable_take_iff_of_error` — so the position of an error is the length of the longest viable
  beginning of the expression.
-/
import RegexAutomata.Proofs.Regex.Scan

namespace RegexAutomata.Regex

/-- A text that can be completed to an expression from which an automaton is built. -/
def Viable (alphabet : Alphabet) (t : Text) : Prop := ∃ v n, toNfa (t ++ v) alphabet = .ok n

namespace Scanner

variable {alphabet : Alphabet} {s : Scanner} {i : Nat} {c : CodePoint}

/-- What completes the text behind a scanner: the code point where a symbol is needed, and a
parenthesis for each open group. -/
def completion (c : CodePoint) (s : Scanner) : Text :=
  (if s.mode = .need then [c] else []) ++ List.replicate s.opened.length closeGroup

/-- Parentheses close the open groups one by one. -/
theorem run_replicate_closeGroup (alphabet : Alphabet) (i : Nat) (hs : s.mode ≠ .need) :
    s.run alphabet i (List.replicate s.opened.length closeGroup) = .ok () := by
  generalize hopened : s.opened = opened
  induction opened generalizing s i with
  | nil => rw [List.length_nil, List.replicate_zero, run, finish, if_neg hs, hopened]
  | cons j opened ih =>
    rw [List.length_cons, List.replicate_succ, run, step_closeGroup hs, hopened]
    exact ih (s := ⟨.atom, opened⟩) (i + 1) (by simp) rfl

theorem run_completion (hc : isOperator c = false) (halphabet : [c] ∈ alphabet) (s : Scanner)
    (i : Nat) : s.run alphabet i (s.completion c) = .ok () := by
  rw [completion]
  by_cases hs : s.mode = .need
  · have hopen : c ≠ openGroup := by
      rintro rfl
      exact absurd hc (by decide)
    have hstep : s.step alphabet i c = .ok ⟨.atom, s.opened⟩ := by
      rw [step, if_pos hs, symbol, if_neg hopen, if_pos ⟨hc, halphabet⟩]
    rw [if_pos hs, List.singleton_append, run, hstep]
    exact run_replicate_closeGroup (s := ⟨.atom, s.opened⟩) alphabet (i + 1) (by simp)
  · rw [if_neg hs, List.nil_append]
    exact run_replicate_closeGroup alphabet i hs

/-- A scanner that finds an error has read a part of the text that can be completed. If the text goes
on there, then nothing that begins with one code point more is free of errors. -/
theorem run_eq_error (hc : isOperator c = false) (halphabet : [c] ∈ alphabet) {t : Text}
    {cause : Cause} {j : Nat} (h : s.run alphabet i t = .error (cause, j)) :
    ∃ u w, t = u ++ w ∧ j = i + u.length ∧ (∃ v, s.run alphabet i (u ++ v) = .ok ()) ∧
      ∀ d w', w = d :: w' → ∀ v, s.run alphabet i (u ++ d :: v) ≠ .ok () := by
  induction t generalizing s i with
  | nil =>
    obtain ⟨-, rfl⟩ := run_nil_eq_error h
    refine ⟨[], [], rfl, rfl, ⟨_, run_completion hc halphabet s j⟩, ?_⟩
    rintro d w' ⟨⟩
  | cons d t ih =>
    rcases run_cons_eq_error h with ⟨s', hstep, hs'⟩ | ⟨hstep, rfl⟩
    · obtain ⟨u, w, rfl, rfl, ⟨v, hv⟩, hw⟩ := ih hs'
      refine ⟨d :: u, w, rfl, ?_, ⟨v, ?_⟩, ?_⟩
      · rw [List.length_cons]
        omega
      · rwa [List.cons_append, run, hstep]
      · intro b w' hb v
        rw [List.cons_append, run, hstep]
        exact hw b w' hb v
    · refine ⟨[], d :: t, rfl, rfl, ⟨_, run_completion hc halphabet s j⟩, ?_⟩
      rintro b w' ⟨rfl, rfl⟩ v
      rw [List.nil_append, run, hstep]
      simp

end Scanner

theorem viable_iff {alphabet : Alphabet} {t : Text} :
    Viable alphabet t ↔ ∃ v, Scanner.initial.run alphabet 0 (t ++ v) = .ok () := by
  simp only [Viable, exists_toNfa_iff_scan, scan_eq_ok_iff]

/-- A beginning of a viable text is viable. -/
theorem Viable.of_append {alphabet : Alphabet} {t u : Text} (h : Viable alphabet (t ++ u)) :
    Viable alphabet t := by
  obtain ⟨v, n, hn⟩ := h
  rw [List.append_assoc] at hn
  exact ⟨u ++ v, n, hn⟩

theorem Viable.take {alphabet : Alphabet} {t : Text} {i j : Nat} (h : Viable alphabet (t.take j))
    (hij : i ≤ j) : Viable alphabet (t.take i) := by
  obtain ⟨u, hu⟩ := List.take_prefix_take_left hij (l := t)
  rw [← hu] at h
  exact h.of_append

/-- The position of an error is where the longest viable beginning of the expression ends: what comes
before it can be completed, and with the code point at it nothing can. -/
theorem viable_take_iff_of_error {alphabet : Alphabet} {regex : Text} {e : ParseError}
    (halphabet : ∃ c, isOperator c = false ∧ [c] ∈ alphabet)
    (h : toNfa regex alphabet = .error e) :
    e.position ≤ regex.length ∧ Viable alphabet (regex.take e.position) ∧
      (e.position < regex.length → ¬Viable alphabet (regex.take (e.position + 1))) ∧
      ∀ i ≤ regex.length, Viable alphabet (regex.take i) ↔ i ≤ e.position := by
  obtain ⟨c, hc, hmem⟩ := halphabet
  rw [toNfa_eq_error_iff, scan_eq_error_iff] at h
  obtain ⟨u, w, rfl, hposition, hviable, hw⟩ := Scanner.run_eq_error hc hmem h.1
  rw [Nat.zero_add] at hposition
  rw [hposition]
  have hlength : u.length ≤ (u ++ w).length := by
    rw [List.length_append]
    omega
  have hu : Viable alphabet ((u ++ w).take u.length) := by
    rw [List.take_left]
    exact viable_iff.mpr hviable
  have hnot (hlt : u.length < (u ++ w).length) :
      ¬Viable alphabet ((u ++ w).take (u.length + 1)) := by
    cases w with
    | nil =>
      rw [List.append_nil] at hlt
      omega
    | cons d w =>
      rw [viable_iff, List.take_length_add_append]
      rintro ⟨v, hv⟩
      refine hw d w rfl v ?_
      simpa using hv
  refine ⟨hlength, hu, hnot, ?_⟩
  intro i hi
  constructor
  · intro hv
    by_contra hlt
    exact hnot (by omega) (hv.take (by omega))
  · intro hle
    exact hu.take hle

/-- One group more than may be open at the same time. -/
theorem viable_take_iff_of_nestingTooDeep :
    let alphabet := Alphabet.ofTexts ["a"]
    let regex : Text := List.replicate 101 openGroup
    let e : ParseError := ⟨.nestingTooDeep, 100, regex⟩
    (∃ c, isOperator c = false ∧ [c] ∈ alphabet) ∧ toNfa regex alphabet = .error e ∧
      e.position ≤ regex.length ∧ Viable alphabet (regex.take e.position) ∧
      (e.position < regex.length → ¬Viable alphabet (regex.take (e.position + 1))) ∧
      ∀ i ≤ regex.length, Viable alphabet (regex.take i) ↔ i ≤ e.position := by
  intro alphabet regex e
  have halphabet : ∃ c, isOperator c = false ∧ [c] ∈ alphabet :=
    ⟨.ofChar 'a', by decide, Alphabet.mem_ofTexts.mpr ⟨_, List.mem_singleton_self _, _,
      List.mem_cons_self, rfl⟩⟩
  have h : toNfa regex alphabet = .error e := toNfa_eq_error_iff.mpr (by decide +kernel)
  exact ⟨halphabet, h, viable_take_iff_of_error halphabet h⟩

end RegexAutomata.Regex
