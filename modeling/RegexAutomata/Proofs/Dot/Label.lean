/-
Reading labels back.

A reader of the text of a drawing finds the end of a label between quotes by taking each backslash
together with the code point behind it, and gets the label back by dropping the first code point of
each such pair. Both go along the label code point by code point, as it was written
(`cutAtQuote_escaped_append`, `unescape_escaped_append`), so there is no need to count backslashes.

* `cutAtQuote_escaped` — the first bare quote behind a written label is the one that ends it;
* `unescape_escaped` — what is read back from between the quotes;
* `reversible_quoteLabel` — both for any label, and different labels are written differently.
-/
import RegexAutomata.Proofs.Dot.Quote

namespace RegexAutomata.Dot

/-! ### The reader -/

/-- What stands before the first bare quote and what stands behind it; a backslash takes the code
point behind it with it. -/
def cutAtQuote : Text → Option (Text × Text)
  | [] => none
  | c :: rest =>
    if c = '"' then some ([], rest)
    else if c = '\\' then
      match rest with
      | [] => none
      | d :: rest => (cutAtQuote rest).map fun (s, u) => (c :: d :: s, u)
    else (cutAtQuote rest).map fun (s, u) => (c :: s, u)

/-- Replaces two backslashes by one, and a backslash with a quote behind it by the quote. -/
def unescape : Text → Text
  | [] => []
  | c :: rest =>
    if c = '\\' then
      match rest with
      | [] => [c]
      | d :: rest =>
        if d = '\\' ∨ d = '"' then d :: unescape rest else c :: d :: unescape rest
    else c :: unescape rest

variable (c : CodePoint) (t u : Text)

theorem cutAtQuote_quote : cutAtQuote (CodePoint.ofChar '"' :: u) = some ([], u) := by
  cases u <;> rfl

theorem cutAtQuote_backslash : cutAtQuote (CodePoint.ofChar '\\' :: c :: u) =
    (cutAtQuote u).map fun (s, v) => (CodePoint.ofChar '\\' :: c :: s, v) :=
  rfl

theorem cutAtQuote_of_ne (hquote : c ≠ '"') (hback : c ≠ '\\') :
    cutAtQuote (c :: u) = (cutAtQuote u).map fun (s, v) => (c :: s, v) := by
  cases u <;> simp [cutAtQuote, hquote, hback]

theorem unescape_of_ne (hback : c ≠ '\\') : unescape (c :: u) = c :: unescape u := by
  cases u <;> simp [unescape, hback]

/-! ### Written labels -/

/-- The written form of a code point has no bare quote. -/
theorem cutAtQuote_escaped_append :
    cutAtQuote (escaped c ++ u) = (cutAtQuote u).map fun (s, v) => (escaped c ++ s, v) := by
  rw [escaped]
  split_ifs with hback hquote
  · exact cutAtQuote_backslash _ u
  · exact cutAtQuote_backslash _ u
  · exact cutAtQuote_of_ne c u hquote hback

theorem unescape_escaped_append : unescape (escaped c ++ u) = c :: unescape u := by
  rw [escaped]
  split_ifs with hback hquote
  · subst hback
    rfl
  · subst hquote
    rfl
  · exact unescape_of_ne c u hback

/-- The reader stops behind the label, whatever comes there. -/
theorem cutAtQuote_escaped :
    cutAtQuote (t.flatMap escaped ++ CodePoint.ofChar '"' :: u) = some (t.flatMap escaped, u) := by
  induction t with
  | nil => exact cutAtQuote_quote u
  | cons c t ih =>
    rw [List.flatMap_cons, List.append_assoc, cutAtQuote_escaped_append, ih]
    rfl

theorem unescape_escaped : unescape (t.flatMap escaped) = t := by
  induction t with
  | nil => rfl
  | cons c t ih => rw [List.flatMap_cons, unescape_escaped_append, ih]

/-! ### Labels -/

variable {t}

/-- A label that is written without quotes has nothing to escape. -/
theorem quoteLabel_of_isPlain (h : isPlain (doubleBackslashes t) = true) :
    quoteLabel t = t ∧ CodePoint.ofChar '"' ∉ t ∧ CodePoint.ofChar '\\' ∉ t := by
  have hmem {c : CodePoint} (hc : c ∈ t) : c ∈ doubleBackslashes t := by
    refine List.mem_flatMap.mpr ⟨c, hc, ?_⟩
    split_ifs
    · exact List.mem_cons_self
    · exact List.mem_cons_self
  have hquote : CodePoint.ofChar '"' ∉ t := fun hc =>
    absurd (isPlainPoint_of_mem h (hmem hc)) (by decide)
  have hback : CodePoint.ofChar '\\' ∉ t := fun hc =>
    absurd (isPlainPoint_of_mem h (hmem hc)) (by decide)
  refine ⟨?_, hquote, hback⟩
  rw [quoteLabel, quotePlain, if_pos h, doubleBackslashes_eq_self hback]

/-- Any other label stands between quotes, code point by code point. -/
theorem quoteLabel_of_not_isPlain (h : isPlain (doubleBackslashes t) = false) :
    quoteLabel t =
      CodePoint.ofChar '"' :: (t.flatMap escaped ++ [CodePoint.ofChar '"']) := by
  rw [quoteLabel, quotePlain, h, ← inQuotes_doubleBackslashes, List.append_nil]
  rfl

/-- The written form of a label is the label itself, with no quote and no backslash in it, or it
stands between quotes: the reader comes to the last one, whatever follows, and gets the label back.
So different labels are never written alike. -/
theorem reversible_quoteLabel :
    (∀ t : Text,
      quoteLabel t = t ∧ CodePoint.ofChar '"' ∉ t ∧ CodePoint.ofChar '\\' ∉ t ∨
        ∃ body, quoteLabel t = CodePoint.ofChar '"' :: (body ++ [CodePoint.ofChar '"']) ∧
          (∀ u, cutAtQuote (body ++ CodePoint.ofChar '"' :: u) = some (body, u)) ∧
          unescape body = t) ∧
      ∀ t u : Text, quoteLabel t = quoteLabel u → t = u := by
  refine ⟨fun t => ?_, fun t u h => ?_⟩
  · cases h : isPlain (doubleBackslashes t) with
    | true => exact .inl (quoteLabel_of_isPlain h)
    | false =>
      exact .inr ⟨t.flatMap escaped, quoteLabel_of_not_isPlain h, cutAtQuote_escaped t,
        unescape_escaped t⟩
  · exact (quoteLabel_append_inj (congrArg (· ++ [CodePoint.ofChar ']']) h)).1

end RegexAutomata.Dot
