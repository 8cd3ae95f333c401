/-
Texts that can be taken apart.

A text that was put together from pieces, one behind the other, determines the pieces if each of
them shows where it ends.

* `eq_of_append_cons_eq` — a code point ends a piece in which it does not occur;
* `Delimited`, `Delimited.flatMap_inj` — pieces that show where they end, and lists of them;
* `Text.mem_join`, `Text.filter_join`, `Text.splitOn_join` — pieces with a separator between them;
* `Text.ofInt_append_cons_inj` — numerals, which consist of digits behind a minus sign or none.
-/
import RegexAutomata.Text.CodePoint
import Mathlib.Data.List.Basic

namespace RegexAutomata

variable {α β : Type}

/-- What comes before the first occurrence of an element is determined. -/
theorem eq_of_append_cons_eq {c : α} {s t u v : List α} (hs : c ∉ s) (ht : c ∉ t)
    (h : s ++ c :: u = t ++ c :: v) : s = t ∧ u = v := by
  induction s generalizing t with
  | nil =>
    cases t with
    | nil => exact ⟨rfl, (List.cons.inj h).2⟩
    | cons d t => exact absurd ((List.cons.inj h).1 ▸ List.mem_cons_self) ht
  | cons d s ih =>
    rw [List.mem_cons, not_or] at hs
    cases t with
    | nil => exact absurd (List.cons.inj h).1.symm hs.1
    | cons e t =>
      obtain ⟨rfl, hrest⟩ := List.cons.inj h
      rw [List.mem_cons, not_or] at ht
      obtain ⟨rfl, huv⟩ := ih hs.2 ht.2 hrest
      exact ⟨rfl, huv⟩

/-- The pieces of some elements show where they end: whatever comes behind a piece, its element and
what is behind it are determined. -/
def Delimited (S : α → Prop) (f : α → List β) : Prop :=
  ∀ {a b u v}, S a → S b → f a ++ u = f b ++ v → a = b ∧ u = v

/-- A text does not go on with a piece. -/
def Ends (f : α → List β) (u : List β) : Prop := ∀ a v, f a ++ v ≠ u

/-- Pieces one behind the other are determined if something follows that is no piece. -/
theorem Delimited.flatMap_inj {S : α → Prop} {f : α → List β} (h : Delimited S f) {l l' : List α}
    {u v : List β} (hl : ∀ a ∈ l, S a) (hl' : ∀ a ∈ l', S a) (hu : Ends f u) (hv : Ends f v)
    (heq : l.flatMap f ++ u = l'.flatMap f ++ v) : l = l' ∧ u = v := by
  induction l generalizing l' with
  | nil =>
    cases l' with
    | nil => exact ⟨rfl, heq⟩
    | cons b l' =>
      rw [List.flatMap_cons, List.append_assoc] at heq
      exact absurd heq.symm (hu b _)
  | cons a l ih =>
    rw [List.flatMap_cons, List.append_assoc] at heq
    cases l' with
    | nil => exact absurd heq (hv a _)
    | cons b l' =>
      rw [List.flatMap_cons, List.append_assoc] at heq
      obtain ⟨ha, hrest⟩ := List.forall_mem_cons.mp hl
      obtain ⟨hb, hrest'⟩ := List.forall_mem_cons.mp hl'
      obtain ⟨rfl, htail⟩ := h ha hb heq
      obtain ⟨rfl, huv⟩ := ih hrest hrest' htail
      exact ⟨rfl, huv⟩

namespace Text

/-! ### Separators -/

theorem mem_join {separator : Text} {parts : List Text} {c : CodePoint}
    (h : c ∈ join separator parts) : c ∈ separator ∨ ∃ t ∈ parts, c ∈ t := by
  induction parts with
  | nil => cases h
  | cons t rest ih =>
    cases rest with
    | nil =>
      rw [join, List.intercalate_singleton] at h
      exact .inr ⟨t, List.mem_cons_self, h⟩
    | cons u rest =>
      rw [join, List.intercalate_cons_cons, List.mem_append, List.mem_append] at h
      rcases h with (ht | hseparator) | hrest
      · exact .inr ⟨t, List.mem_cons_self, ht⟩
      · exact .inl hseparator
      · refine (ih hrest).imp_right ?_
        rintro ⟨v, hv, hc⟩
        exact ⟨v, List.mem_cons_of_mem t hv, hc⟩

/-- What is left of joined pieces are the pieces and separators that are left, joined. -/
theorem filter_join (p : CodePoint → Bool) (separator : Text) (parts : List Text) :
    (join separator parts).filter p = join (separator.filter p) (parts.map (List.filter p)) := by
  induction parts with
  | nil => rfl
  | cons t rest ih =>
    cases rest with
    | nil =>
      rw [List.map_singleton, join, join, List.intercalate_singleton, List.intercalate_singleton]
    | cons u rest =>
      rw [join, List.intercalate_cons_cons, ← join, List.filter_append, List.filter_append, ih]
      exact List.intercalate_cons_cons.symm

/-- The pieces of a text are those of the general function on lists. -/
theorem splitOn_eq (separator : CodePoint) (t : Text) :
    splitOn separator t = List.splitOn separator t := by
  induction t with
  | nil => rfl
  | cons c rest ih =>
    obtain ⟨piece, pieces, hpieces⟩ :=
      List.exists_cons_of_ne_nil (List.splitOn_ne_nil separator rest)
    rw [splitOn, ih, List.splitOn_cons_eq_if_modifyHead, hpieces]
    simp only [beq_iff_eq]
    rfl

/-- Joined pieces are taken apart again if the separator is in none of them. -/
theorem splitOn_join {separator : CodePoint} {parts : List Text} (h : ∀ t ∈ parts, separator ∉ t)
    (hne : parts ≠ []) : splitOn separator (join [separator] parts) = parts := by
  rw [splitOn_eq]
  exact List.splitOn_intercalate separator h hne

/-! ### Numerals -/

theorem isDigit_of_mem_ofNat {n : Nat} {c : CodePoint} (h : c ∈ ofNat n) : c.isDigit = true := by
  obtain ⟨d, hd, rfl⟩ := List.mem_map.mp h
  have hdigit := Nat.isDigit_of_mem_toDigits (by decide) (by decide) hd
  simp only [Char.isDigit, Bool.and_eq_true, decide_eq_true_eq, ge_iff_le,
    UInt32.le_iff_toNat_le] at hdigit
  rw [CodePoint.isDigit, Bool.and_eq_true]
  exact ⟨decide_eq_true hdigit.1, decide_eq_true hdigit.2⟩

theorem ofNat_ne_nil (n : Nat) : ofNat n ≠ [] := by
  rw [ofNat, Ne, List.map_eq_nil_iff]
  exact Nat.toDigits_ne_nil

theorem ofNat_injective : Function.Injective ofNat := by
  intro n m h
  have hdigits : Nat.toDigits 10 n = Nat.toDigits 10 m :=
    List.map_injective_iff.mpr (fun _ _ => CodePoint.ofChar_injective) h
  calc
    n = Nat.ofDigitChars 10 (Nat.toDigits 10 n) 0 := Nat.ofDigitChars_ten_toDigits.symm
    _ = Nat.ofDigitChars 10 (Nat.toDigits 10 m) 0 := by rw [hdigits]
    _ = m := Nat.ofDigitChars_ten_toDigits

/-- A numeral consists of digits, behind a minus sign or none. -/
theorem exists_ofInt_eq (q : Int) :
    ∃ n, ofInt q = ofNat n ∨ ofInt q = CodePoint.ofChar '-' :: ofNat n := by
  cases q with
  | ofNat n => exact ⟨n, .inl rfl⟩
  | negSucc n => exact ⟨n + 1, .inr rfl⟩

theorem mem_ofInt {q : Int} {c : CodePoint} (h : c ∈ ofInt q) :
    c.isDigit = true ∨ c = CodePoint.ofChar '-' := by
  obtain ⟨n, hn | hn⟩ := exists_ofInt_eq q
  · exact .inl (isDigit_of_mem_ofNat (hn ▸ h))
  · rw [hn, List.mem_cons] at h
    exact h.symm.imp_left isDigit_of_mem_ofNat

theorem ofInt_injective : Function.Injective ofInt := by
  -- no numeral without a minus sign begins with one
  have hsign (n m : Nat) : ofNat n ≠ CodePoint.ofChar '-' :: ofNat m := by
    intro h
    have hdigit := isDigit_of_mem_ofNat (h ▸ List.mem_cons_self : CodePoint.ofChar '-' ∈ ofNat n)
    exact absurd hdigit (by decide)
  intro p q h
  cases p with
  | ofNat n =>
    cases q with
    | ofNat m => exact congrArg Int.ofNat (ofNat_injective h)
    | negSucc m => exact absurd h (hsign n (m + 1))
  | negSucc n =>
    cases q with
    | ofNat m => exact absurd h.symm (hsign m (n + 1))
    | negSucc m =>
      have hsucc : n + 1 = m + 1 := ofNat_injective (List.cons.inj h).2
      rw [Nat.succ.inj hsucc]

theorem notMem_ofInt {c : CodePoint} (hdigit : c.isDigit = false)
    (hsign : c ≠ CodePoint.ofChar '-') (q : Int) : c ∉ ofInt q := by
  intro hc
  rcases mem_ofInt hc with hc | hc
  · rw [hdigit] at hc
    cases hc
  · exact hsign hc

/-- A code point that is no digit and no minus sign ends a numeral. -/
theorem ofInt_append_cons_inj {p q : Int} {c : CodePoint} {u v : Text} (hdigit : c.isDigit = false)
    (hsign : c ≠ CodePoint.ofChar '-') (h : ofInt p ++ c :: u = ofInt q ++ c :: v) :
    p = q ∧ u = v := by
  obtain ⟨hpq, huv⟩ :=
    eq_of_append_cons_eq (notMem_ofInt hdigit hsign p) (notMem_ofInt hdigit hsign q) h
  exact ⟨ofInt_injective hpq, huv⟩

end Text

end RegexAutomata
