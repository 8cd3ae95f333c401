/-
Labels between quotes.

The written form of a label shows where it ends, whatever the label is: a text without quotes has no
brackets in it, and between quotes each code point is written in a way that shows where it ends, and
never as a quote.

* `isPlainPoint_of_mem` — the code points of texts that need no quotes;
* `escapeQuotes_doubleBackslashes`, `delimited_escaped` — what stands between quotes;
* `quoteLabel_append_inj` — a label and what follows its written form are determined;
* `IsCalm.quote_eq` — labels of states without backslashes and angle brackets are written in the
  same way;
* `quote_ofInt` — numerals need no quotes.
-/
import RegexAutomata.Dot.Quote
import RegexAutomata.Proofs.Text.Delimited
import Mathlib.Data.List.TakeDrop
import Mathlib.Data.List.TakeWhile

namespace RegexAutomata.Dot

variable {a b t u v : Text} {c : CodePoint}

/-! ### Texts without quotes -/

/-- Code points of names and numbers, and the line feed that may follow them. -/
def isPlainPoint (c : CodePoint) : Bool :=
  c.isLetter || c.isDigit || c = '_' || c = '.' || c = '-' || c = '\n'

theorem isPlainPoint_of_isDigit (h : c.isDigit = true) : isPlainPoint c = true := by
  simp [isPlainPoint, h]

theorem isPlainPoint_of_isNameStart (h : isNameStart c = true) : isPlainPoint c = true := by
  rw [isNameStart, Bool.or_eq_true] at h
  rcases h with h | h <;> simp [isPlainPoint, h]

theorem isPlainPoint_of_isName (h : isName t = true) : ∀ c ∈ t, isPlainPoint c = true := by
  cases t with
  | nil => exact List.forall_mem_nil _
  | cons c t =>
    rw [isName, Bool.and_eq_true, List.all_eq_true] at h
    refine List.forall_mem_cons.mpr ⟨isPlainPoint_of_isNameStart h.1, fun d hd => ?_⟩
    rcases Bool.or_eq_true_iff.mp (h.2 d hd) with hd | hd
    · exact isPlainPoint_of_isNameStart hd
    · exact isPlainPoint_of_isDigit hd

theorem isPlainPoint_of_isUnsigned (h : isUnsigned t = true) : ∀ c ∈ t, isPlainPoint c = true := by
  rw [isUnsigned, List.span_eq_takeWhile_dropWhile] at h
  have hdigits (s : Text) (hs : ∀ c ∈ s, c.isDigit = true) : ∀ c ∈ s, isPlainPoint c = true :=
    fun c hc => isPlainPoint_of_isDigit (hs c hc)
  rw [← List.takeWhile_append_dropWhile (p := CodePoint.isDigit) (l := t)]
  refine List.forall_mem_append.mpr ⟨hdigits _ fun c hc => List.mem_takeWhile_imp hc, ?_⟩
  -- behind the first digits comes nothing, or a point and more digits
  cases hrest : t.dropWhile CodePoint.isDigit with
  | nil => exact List.forall_mem_nil _
  | cons c fraction =>
    rw [hrest] at h
    simp only [Bool.and_eq_true, decide_eq_true_eq, List.all_eq_true] at h
    obtain ⟨⟨rfl, hfraction⟩, -⟩ := h
    exact List.forall_mem_cons.mpr ⟨rfl, hdigits _ hfraction⟩

theorem isPlainPoint_of_isNumber (h : isNumber t = true) : ∀ c ∈ t, isPlainPoint c = true := by
  cases t with
  | nil => exact List.forall_mem_nil _
  | cons c t =>
    rw [isNumber] at h
    split_ifs at h with hc
    · exact List.forall_mem_cons.mpr ⟨by simp [isPlainPoint, hc], isPlainPoint_of_isUnsigned h⟩
    · exact isPlainPoint_of_isUnsigned h

theorem mem_dropFinalNewline (h : c ∈ t) : c ∈ dropFinalNewline t ∨ c = CodePoint.ofChar '\n' := by
  rw [dropFinalNewline]
  split_ifs with hlast
  · obtain ⟨s, rfl⟩ := List.getLast?_eq_some_iff.mp hlast
    rw [List.dropLast_concat]
    exact (List.mem_append.mp h).imp_right List.mem_singleton.mp
  · exact .inl h

theorem isPlainPoint_of_mem (h : isPlain t = true) (hc : c ∈ t) : isPlainPoint c = true := by
  rw [isPlain, Bool.and_eq_true, Bool.or_eq_true] at h
  rcases mem_dropFinalNewline hc with hc | rfl
  · rcases h.1 with h | h
    · exact isPlainPoint_of_isName h c hc
    · exact isPlainPoint_of_isNumber h c hc
  · rfl

/-! ### Texts between quotes -/

/-- How a code point is written between quotes. -/
def escaped (c : CodePoint) : Text :=
  if c = '\\' then ['\\', '\\'] else if c = '"' then ['\\', '"'] else [c]

theorem delimited_escaped : Delimited (fun _ => True) escaped := by
  intro a b u v _ _ h
  rw [escaped, escaped] at h
  split_ifs at h <;> simp_all

/-- A quote that stands alone is not the written form of a code point. -/
theorem ends_escaped (u : Text) : Ends escaped (CodePoint.ofChar '"' :: u) := by
  intro c v h
  have hne : CodePoint.ofChar '\\' ≠ CodePoint.ofChar '"' := by decide
  rw [escaped] at h
  split_ifs at h <;> simp_all

/-- After an even number of backslashes, doubled backslashes stay and each quote gets one. -/
theorem escapeQuotes_doubleBackslashes (t : Text) {k : Nat} (hk : k % 2 = 0) :
    escapeQuotes k (doubleBackslashes t) =
      List.replicate k (CodePoint.ofChar '\\') ++ t.flatMap escaped := by
  induction t generalizing k with
  | nil => exact (List.append_nil _).symm
  | cons c t ih =>
    have hdouble : doubleBackslashes (c :: t) =
        (if c = '\\' then [c, c] else [c]) ++ doubleBackslashes t := rfl
    rw [hdouble, List.flatMap_cons, escaped]
    split_ifs with hback hquote
    · subst hback
      rw [List.cons_append, List.singleton_append, escapeQuotes, if_pos rfl, escapeQuotes,
        if_pos rfl, ih (by omega), List.replicate_succ', List.replicate_succ', List.append_assoc,
        List.append_assoc]
      rfl
    · subst hquote
      have hk' : 2 * (k / 2) = k := by omega
      rw [List.singleton_append, escapeQuotes, if_neg hback, if_pos rfl, ih rfl, hk',
        List.replicate_add, List.append_assoc]
      rfl
    · rw [List.singleton_append, escapeQuotes, if_neg hback, if_neg hquote, ih rfl]
      rfl

/-- What a label is between quotes. -/
theorem inQuotes_doubleBackslashes (t u : Text) :
    inQuotes (doubleBackslashes t) ++ u =
      CodePoint.ofChar '"' :: (t.flatMap escaped ++ CodePoint.ofChar '"' :: u) := by
  rw [inQuotes, escapeQuotes_doubleBackslashes t rfl]
  simp

/-! ### Labels -/

theorem doubleBackslashes_injective : Function.Injective doubleBackslashes := by
  have hdelimited : Delimited (fun _ => True)
      (fun c : CodePoint => if c = '\\' then [c, c] else [c]) := by
    intro a b u v _ _ h
    dsimp only at h
    split_ifs at h <;> simp_all
  have hends : Ends (fun c : CodePoint => if c = '\\' then [c, c] else [c]) [] := by
    intro c v h
    dsimp only at h
    split_ifs at h
    · cases h
    · cases h
  intro a b h
  refine (hdelimited.flatMap_inj (fun _ _ => trivial) (fun _ _ => trivial) hends hends ?_).1
  rw [List.append_nil, List.append_nil]
  exact h

/-- A text without quotes does not begin like one with quotes. -/
theorem not_isPlain_of_append_eq (h : a ++ CodePoint.ofChar ']' :: u = inQuotes b ++ v) :
    isPlain a = false := by
  by_contra hplain
  rw [Bool.not_eq_false] at hplain
  cases a with
  | nil => cases hplain
  | cons c a =>
    obtain rfl : c = CodePoint.ofChar '"' := (List.cons.inj h).1
    exact absurd (isPlainPoint_of_mem hplain List.mem_cons_self) (by decide)

/-- Whatever the label is, it is determined by its written form and a bracket behind it. -/
theorem quoteLabel_append_inj
    (h : quoteLabel a ++ CodePoint.ofChar ']' :: u = quoteLabel b ++ CodePoint.ofChar ']' :: v) :
    a = b ∧ u = v := by
  have hbracket {t : Text} (ht : isPlain t = true) : CodePoint.ofChar ']' ∉ t := by
    intro hmem
    exact absurd (isPlainPoint_of_mem ht hmem) (by decide)
  rw [quoteLabel, quoteLabel, quotePlain, quotePlain] at h
  split_ifs at h with ha hb hb
  · obtain ⟨hab, huv⟩ := eq_of_append_cons_eq (hbracket ha) (hbracket hb) h
    exact ⟨doubleBackslashes_injective hab, huv⟩
  · rw [not_isPlain_of_append_eq h] at ha
    cases ha
  · rw [not_isPlain_of_append_eq h.symm] at hb
    cases hb
  · rw [inQuotes_doubleBackslashes, inQuotes_doubleBackslashes] at h
    obtain ⟨hab, huv⟩ := delimited_escaped.flatMap_inj (fun _ _ => trivial) (fun _ _ => trivial)
      (ends_escaped _) (ends_escaped _) (List.cons.inj h).2
    exact ⟨hab, (List.cons.inj (List.cons.inj huv).2).2⟩

/-- A text with nothing to escape that does not begin with an angle bracket. -/
def IsCalm (t : Text) : Prop :=
  CodePoint.ofChar '\\' ∉ t ∧ t.head? ≠ some (CodePoint.ofChar '<')

theorem dropFinalNewline_eq_self (h : CodePoint.ofChar '\n' ∉ t) : dropFinalNewline t = t :=
  if_neg fun hlast => h (List.mem_of_getLast? hlast)

theorem head?_of_dropFinalNewline (h : (dropFinalNewline t).head? = some c) :
    t.head? = some c := by
  rw [dropFinalNewline] at h
  split_ifs at h with hlast
  · obtain ⟨s, rfl⟩ := List.getLast?_eq_some_iff.mp hlast
    rw [List.dropLast_concat] at h
    rw [List.head?_append, h]
    rfl
  · exact h

theorem doubleBackslashes_eq_self (h : CodePoint.ofChar '\\' ∉ t) : doubleBackslashes t = t := by
  induction t with
  | nil => rfl
  | cons c t ih =>
    rw [List.mem_cons, not_or] at h
    rw [doubleBackslashes, List.flatMap_cons, ← doubleBackslashes, ih h.2, if_neg (Ne.symm h.1)]
    rfl

/-- Such a text is written like a label of an edge. -/
theorem IsCalm.quote_eq (h : IsCalm t) : quote t = quoteLabel t := by
  have hmarkup : isMarkup t = false := by
    rw [isMarkup, Bool.and_eq_false_iff]
    exact .inl (decide_eq_false fun hhead => h.2 (head?_of_dropFinalNewline hhead))
  rw [quote, hmarkup, quoteLabel, doubleBackslashes_eq_self h.1]
  rfl

/-! ### Numerals -/

theorem isCalm_ofInt (q : Int) : IsCalm (Text.ofInt q) :=
  ⟨Text.notMem_ofInt rfl (by decide) q,
    fun hhead => Text.notMem_ofInt rfl (by decide) q (List.mem_of_head? hhead)⟩

theorem isUnsigned_ofNat (n : Nat) : isUnsigned (Text.ofNat n) = true := by
  have hdigits : ∀ c ∈ Text.ofNat n, c.isDigit = true := fun c => Text.isDigit_of_mem_ofNat
  rw [isUnsigned, List.span_eq_takeWhile_dropWhile, List.takeWhile_eq_self_iff.mpr hdigits,
    List.dropWhile_eq_nil_iff.mpr hdigits]
  obtain ⟨c, t, ht⟩ := List.exists_cons_of_ne_nil (Text.ofNat_ne_nil n)
  rw [ht]

theorem isNumber_ofInt (q : Int) : isNumber (Text.ofInt q) = true := by
  obtain ⟨n, hn | hn⟩ := Text.exists_ofInt_eq q
  · obtain ⟨c, t, ht⟩ := List.exists_cons_of_ne_nil (Text.ofNat_ne_nil n)
    have hdigit : c.isDigit = true := Text.isDigit_of_mem_ofNat (ht ▸ List.mem_cons_self)
    have hsign : c ≠ CodePoint.ofChar '-' := by
      rintro rfl
      cases hdigit
    rw [hn, ht, isNumber, if_neg hsign, ← ht]
    exact isUnsigned_ofNat n
  · rw [hn, isNumber, if_pos rfl]
    exact isUnsigned_ofNat n

/-- The small form of a digit or a sign is no letter. -/
theorem isLetter_toLower_of_mem_ofInt {q : Int} (h : c ∈ Text.ofInt q) :
    c.toLower.isLetter = false := by
  have hvalue : ¬(0x41 ≤ c.value ∧ c.value ≤ 0x5A) ∧ ¬(0x61 ≤ c.value ∧ c.value ≤ 0x7A) := by
    rcases Text.mem_ofInt h with h | rfl
    · simp only [CodePoint.isDigit, Bool.and_eq_true, decide_eq_true_eq] at h
      omega
    · decide
  rw [CodePoint.toLower, dif_neg hvalue.1]
  simpa [CodePoint.isLetter] using hvalue

/-- A keyword has a letter. -/
theorem keywords_contains_ofInt (q : Int) :
    keywords.contains ((Text.ofInt q).map CodePoint.toLower) = false := by
  have hletter : ∀ k ∈ keywords, ∃ c ∈ k, c.isLetter = true := by decide
  rw [← Bool.not_eq_true, List.contains_iff_mem]
  intro hmem
  obtain ⟨c, hc, hletter⟩ := hletter _ hmem
  obtain ⟨d, hd, rfl⟩ := List.mem_map.mp hc
  rw [isLetter_toLower_of_mem_ofInt hd] at hletter
  cases hletter

/-- Numerals need no quotes. -/
theorem quote_ofInt (q : Int) : quote (Text.ofInt q) = Text.ofInt q := by
  have hnewline := Text.notMem_ofInt (c := CodePoint.ofChar '\n') rfl (by decide) q
  have hplain : isPlain (Text.ofInt q) = true := by
    rw [isPlain, dropFinalNewline_eq_self hnewline, isNumber_ofInt, keywords_contains_ofInt,
      Bool.or_true]
    rfl
  rw [(isCalm_ofInt q).quote_eq, quoteLabel, doubleBackslashes_eq_self (isCalm_ofInt q).1,
    quotePlain, if_pos hplain]

end RegexAutomata.Dot
