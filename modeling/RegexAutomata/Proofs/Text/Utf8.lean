/-
UTF-8 is read back.

A text without surrogates is decoded from its bytes, and nothing else is decoded. So some bytes are
either those of exactly one such text, or there is an error.

* `Utf8.Sequence` — the bytes that are read as one code point;
* `Utf8.Sequence.encodePoint_eq`, `Utf8.sequence_encodePoint` — these are the bytes that a code point
  is encoded with;
* `Utf8.decode_eq_ok_iff` — and so it is for texts.
-/
import RegexAutomata.Proofs.Dot.Encodable
import RegexAutomata.Text.Utf8
import Mathlib.Data.List.Basic

namespace RegexAutomata.Utf8

variable {b b₂ : UInt8} {s bytes : Bytes} {c : CodePoint} {t done : Text} {n : Nat}

/-! ### Bytes by their numbers -/

/-- The first bytes of a kind, from the least one up to a bound. -/
def Lead.range : Lead → Nat × Nat
  | one => (0, 0x80)
  | two => (0xC2, 0xE0)
  | three => (0xE0, 0xF0)
  | four => (0xF0, 0xF5)
  | invalid => (0xF5, 0x100)

theorem lead_eq_iff {l : Lead} (hl : l ≠ .invalid) :
    lead b = l ↔ l.range.1 ≤ b.toNat ∧ b.toNat < l.range.2 := by
  simp only [lead, UInt8.lt_iff_toNat_lt, UInt8.le_iff_toNat_le, Bool.and_eq_true, decide_eq_true_eq]
  cases l <;> split_ifs <;> simp_all [Lead.range] <;> omega

theorem isContinuation_iff : isContinuation b = true ↔ 0x80 ≤ b.toNat ∧ b.toNat < 0xC0 := by
  simp [isContinuation, UInt8.lt_iff_toNat_lt, UInt8.le_iff_toNat_le]

/-- The second byte keeps the code point above those with fewer bytes, away from the surrogates and
below the greatest one. -/
theorem isSecond_iff : isSecond false b b₂ = true ↔ isContinuation b₂ = true ∧
    (b.toNat = 0xE0 → 0xA0 ≤ b₂.toNat) ∧ (b.toNat = 0xED → b₂.toNat < 0xA0) ∧
    (b.toNat = 0xF0 → 0x90 ≤ b₂.toNat) ∧ (b.toNat = 0xF4 → b₂.toNat < 0x90) := by
  have hE0 : b = 0xE0 ↔ b.toNat = 0xE0 := UInt8.toNat_inj.symm
  have hED : b = 0xED ↔ b.toNat = 0xED := UInt8.toNat_inj.symm
  have hF0 : b = 0xF0 ↔ b.toNat = 0xF0 := UInt8.toNat_inj.symm
  have hF4 : b = 0xF4 ↔ b.toNat = 0xF4 := UInt8.toNat_inj.symm
  simp only [isSecond, hE0, hED, hF0, hF4, Bool.and_eq_true, Bool.or_false]
  refine and_congr_right fun _ => ?_
  split_ifs <;> simp_all [UInt8.lt_iff_toNat_lt, UInt8.le_iff_toNat_le]

theorem value_point (h : n < 0x110000) : (point n).value = n := by
  simp [point, CodePoint.ofNat?, h]

theorem point_value (c : CodePoint) : point c.value = c := by
  simp [point, CodePoint.ofNat?, c.valid]

theorem isSurrogate_eq_false_iff :
    c.isSurrogate = false ↔ c.value < 0xD800 ∨ 0xDFFF < c.value := by
  simp only [CodePoint.isSurrogate, Bool.and_eq_false_iff, decide_eq_false_iff_not]
  omega

/-- A byte inside a sequence has six bits of a number. -/
theorem toNat_inner (k : Nat) : (UInt8.ofNat (0x80 + k % 64)).toNat = 0x80 + k % 64 := by
  rw [UInt8.toNat_ofNat']
  omega

theorem isContinuation_inner (k : Nat) : isContinuation (.ofNat (0x80 + k % 64)) = true := by
  rw [isContinuation_iff, toNat_inner]
  omega

theorem low_inner (k : Nat) : low (.ofNat (0x80 + k % 64)) = k % 64 := by
  rw [low, toNat_inner]
  omega

/-! ### Sequences -/

/-- Bytes that are read as one code point. -/
inductive Sequence : Bytes → CodePoint → Prop where
  | one {b : UInt8} : lead b = .one → Sequence [b] (point b.toNat)
  | two {b b₂ : UInt8} : lead b = .two → isContinuation b₂ = true →
    Sequence [b, b₂] (point (b.toNat % 32 * 64 + low b₂))
  | three {b b₂ b₃ : UInt8} : lead b = .three → isSecond false b b₂ = true →
    isContinuation b₃ = true →
    Sequence [b, b₂, b₃] (point (b.toNat % 16 * 4096 + low b₂ * 64 + low b₃))
  | four {b b₂ b₃ b₄ : UInt8} : lead b = .four → isSecond false b b₂ = true →
    isContinuation b₃ = true → isContinuation b₄ = true →
    Sequence [b, b₂, b₃, b₄]
      (point (b.toNat % 8 * 262144 + low b₂ * 4096 + low b₃ * 64 + low b₄))

/-- What is read as a code point is what the code point is encoded with, and it is no surrogate. -/
theorem Sequence.encodePoint_eq (h : Sequence s c) : encodePoint c = s ∧ c.isSurrogate = false := by
  rw [isSurrogate_eq_false_iff]
  cases h with
  | @one b hb =>
    have hb := (lead_eq_iff (l := .one) nofun).mp hb
    simp only [Lead.range] at hb
    rw [value_point (by omega), encodePoint, value_point (by omega), if_pos (by omega)]
    refine ⟨?_, by omega⟩
    rw [UInt8.ofNat_toNat]
  | @two b b₂ hb h₂ =>
    have hb := (lead_eq_iff (l := .two) nofun).mp hb
    have h₂ := isContinuation_iff.mp h₂
    simp only [Lead.range] at hb
    simp only [low]
    rw [value_point (by omega), encodePoint, value_point (by omega), if_neg (by omega),
      if_pos (by omega)]
    refine ⟨?_, by omega⟩
    simp only [List.cons.injEq, ← UInt8.toNat_inj, and_true, toNat_inner]
    rw [UInt8.toNat_ofNat']
    omega
  | @three b b₂ b₃ hb h₂ h₃ =>
    have hb := (lead_eq_iff (l := .three) nofun).mp hb
    obtain ⟨h₂, hE0, hED, -⟩ := isSecond_iff.mp h₂
    have h₂ := isContinuation_iff.mp h₂
    have h₃ := isContinuation_iff.mp h₃
    simp only [Lead.range] at hb
    simp only [low]
    rw [value_point (by omega), encodePoint, value_point (by omega), if_neg (by omega),
      if_neg (by omega), if_pos (by omega)]
    refine ⟨?_, by omega⟩
    simp only [List.cons.injEq, ← UInt8.toNat_inj, and_true, toNat_inner]
    rw [UInt8.toNat_ofNat']
    omega
  | @four b b₂ b₃ b₄ hb h₂ h₃ h₄ =>
    have hb := (lead_eq_iff (l := .four) nofun).mp hb
    obtain ⟨h₂, -, -, hF0, hF4⟩ := isSecond_iff.mp h₂
    have h₂ := isContinuation_iff.mp h₂
    have h₃ := isContinuation_iff.mp h₃
    have h₄ := isContinuation_iff.mp h₄
    simp only [Lead.range] at hb
    simp only [low]
    rw [value_point (by omega), encodePoint, value_point (by omega), if_neg (by omega),
      if_neg (by omega), if_neg (by omega)]
    refine ⟨?_, by omega⟩
    simp only [List.cons.injEq, ← UInt8.toNat_inj, and_true, toNat_inner]
    rw [UInt8.toNat_ofNat']
    omega

/-- The bytes of a code point that is no surrogate are read as this code point. -/
theorem sequence_encodePoint (h : c.isSurrogate = false) : Sequence (encodePoint c) c := by
  have hvalid := c.valid
  rw [isSurrogate_eq_false_iff] at h
  have hread {m : Nat} {s : Bytes} (hm : m = c.value) (hs : Sequence s (point m)) : Sequence s c := by
    rwa [hm, point_value] at hs
  rw [encodePoint]
  dsimp only
  -- for each number of bytes: what is read has the right number, the first byte is of its kind, and
  -- the second one is none of those that are left out
  split_ifs with h₁ h₂ h₃
  · refine hread ?_ (.one ((lead_eq_iff (l := .one) nofun).mpr ?_))
    · rw [UInt8.toNat_ofNat']
      omega
    · rw [UInt8.toNat_ofNat']
      simp only [Lead.range]
      omega
  · refine hread ?_ (.two ((lead_eq_iff (l := .two) nofun).mpr ?_) (isContinuation_inner _))
    · rw [low_inner, UInt8.toNat_ofNat']
      omega
    · rw [UInt8.toNat_ofNat']
      simp only [Lead.range]
      omega
  · refine hread ?_ (.three ((lead_eq_iff (l := .three) nofun).mpr ?_)
      (isSecond_iff.mpr ⟨isContinuation_inner _, ?_⟩) (isContinuation_inner _))
    · rw [low_inner, low_inner, UInt8.toNat_ofNat']
      omega
    · rw [UInt8.toNat_ofNat']
      simp only [Lead.range]
      omega
    · rw [toNat_inner, UInt8.toNat_ofNat']
      omega
  · refine hread ?_ (.four ((lead_eq_iff (l := .four) nofun).mpr ?_)
      (isSecond_iff.mpr ⟨isContinuation_inner _, ?_⟩) (isContinuation_inner _)
      (isContinuation_inner _))
    · rw [low_inner, low_inner, low_inner, UInt8.toNat_ofNat']
      omega
    · rw [UInt8.toNat_ofNat']
      simp only [Lead.range]
      omega
    · rw [toNat_inner, UInt8.toNat_ofNat']
      omega

/-! ### Decoding -/

theorem decodeFrom_append (h : Sequence s c) (position : Nat) (done : Text) (rest : Bytes) :
    decodeFrom false position done (s ++ rest) =
      decodeFrom false (position + s.length) (c :: done) rest := by
  rw [decodeFrom.eq_def]
  cases h with
  | one hb => simp [hb]
  | two hb h₂ => simp [hb, h₂]
  | three hb h₂ h₃ => simp [hb, h₂, h₃]
  | four hb h₂ h₃ h₄ => simp [hb, h₂, h₃, h₄]

/-- What is decoded begins with a sequence, unless it is empty. -/
theorem exists_sequence_of_decodeFrom {position : Nat}
    (h : decodeFrom false position done (b :: bytes) = .ok t) :
    ∃ s c rest, Sequence s c ∧ b :: bytes = s ++ rest := by
  unfold decodeFrom at h
  dsimp only at h
  split at h
  · cases h
  · next hb => exact ⟨[b], _, bytes, .one hb, rfl⟩
  · next hb =>
    split at h
    · cases h
    · next b₂ rest =>
      split_ifs at h with h₂
      exact ⟨[b, b₂], _, rest, .two hb h₂, rfl⟩
  · next hb =>
    split at h
    · cases h
    · next b₂ rest =>
      split at h
      · cases h
      · next h₂ =>
        split at h
        · split at h <;> cases h
        · next b₃ rest =>
          split at h
          · next h₃ => exact ⟨[b, b₂, b₃], _, rest, .three hb (by simpa using h₂) h₃, rfl⟩
          · split at h <;> cases h
  · next hb =>
    split at h
    · cases h
    · next b₂ rest =>
      split at h
      · cases h
      · next h₂ =>
        split at h
        · cases h
        · next b₃ rest =>
          split at h
          · cases h
          · next h₃ =>
            split at h
            · cases h
            · next b₄ rest =>
              split_ifs at h with h₄
              exact ⟨[b, b₂, b₃, b₄], _, rest,
                .four hb (by simpa using h₂) (by simpa using h₃) h₄, rfl⟩

theorem Sequence.length_pos (h : Sequence s c) : 0 < s.length := by
  cases h <;> exact Nat.succ_pos _

/-- What was decoded before stays, and the rest are the bytes of a text without surrogates. -/
theorem decodeFrom_eq_ok_iff (position : Nat) (done : Text) (bytes : Bytes) :
    decodeFrom false position done bytes = .ok t ↔
      ∃ u : Text, u.Encodable ∧ bytes = encode u ∧ t = done.reverse ++ u := by
  constructor
  · intro h
    induction hlength : bytes.length using Nat.strong_induction_on generalizing bytes position done
    next k ih =>
    subst hlength
    cases bytes with
    | nil =>
      rw [decodeFrom] at h
      exact ⟨[], Text.encodable_nil, rfl, by rw [← Except.ok.inj h, List.append_nil]⟩
    | cons b bytes =>
      obtain ⟨s, c, rest, hs, hbytes⟩ := exists_sequence_of_decodeFrom h
      have hpos := hs.length_pos
      rw [hbytes, decodeFrom_append hs] at h
      rw [hbytes] at ih ⊢
      obtain ⟨u, hu, rfl, rfl⟩ := ih rest.length (by rw [List.length_append]; omega) _ _ _ h rfl
      obtain ⟨rfl, hc⟩ := hs.encodePoint_eq
      exact ⟨c :: u, Text.encodable_cons.mpr ⟨hc, hu⟩, by simp [encode], by simp⟩
  · rintro ⟨u, hu, rfl, rfl⟩
    induction u generalizing position done with
    | nil => rw [encode, List.flatMap_nil, decodeFrom, List.append_nil]
    | cons c u ih =>
      obtain ⟨hc, hu⟩ := Text.encodable_cons.mp hu
      have hencode : encode (c :: u) = encodePoint c ++ encode u := List.flatMap_cons
      rw [hencode, decodeFrom_append (sequence_encodePoint hc), ih _ _ hu, List.reverse_cons,
        List.append_assoc, List.singleton_append]

/-- Bytes are decoded exactly if they are those of a text without surrogates. -/
theorem decode_eq_ok_iff : decode false bytes = .ok t ↔ t.Encodable ∧ bytes = encode t := by
  rw [decode, decodeFrom_eq_ok_iff]
  simp

end RegexAutomata.Utf8
