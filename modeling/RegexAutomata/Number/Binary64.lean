/-
Binary floating-point numbers of 64 bits, read from decimal numerals.

A finite number is `significand * 2 ^ exponent` with at most 53 bits in the significand and an
exponent between -1074 and 971. A decimal is rounded to the nearest such number in exact
arithmetic, an exact half to the even significand.

* `roundDiv_le`, `lt_roundDiv` — a rounded quotient is within half a unit of the quotient;
* `roundDiv_mul` — an exact quotient stays as it is.
-/
import RegexAutomata.Text.CodePoint

namespace RegexAutomata

/-- A decimal numeral: `coefficient * 10 ^ exponent`, with a sign that zero keeps too. -/
structure Decimal where
  negative : Bool
  coefficient : Nat
  exponent : Int
deriving DecidableEq

inductive Binary64 where
  | nan
  | infinite (negative : Bool)
  | finite (negative : Bool) (significand : Nat) (exponent : Int)
deriving DecidableEq

/-- The quotient rounded to the nearest natural number, a half to the even one. -/
def roundDiv (a b : Nat) : Nat :=
  let q := a / b
  let twice := 2 * (a % b)
  if b < twice ∨ (twice = b ∧ q % 2 = 1) then q + 1 else q

theorem roundDiv_le {a b : Nat} (hb : 0 < b) : 2 * (roundDiv a b * b) ≤ 2 * a + b := by
  have h := Nat.div_add_mod a b
  have hm := Nat.mod_lt a hb
  rw [Nat.mul_comm] at h
  simp only [roundDiv]
  split
  · rw [Nat.add_mul]
    omega
  · omega

theorem lt_roundDiv {a b : Nat} (hb : 0 < b) : 2 * a ≤ 2 * (roundDiv a b * b) + b := by
  have h := Nat.div_add_mod a b
  have hm := Nat.mod_lt a hb
  rw [Nat.mul_comm] at h
  simp only [roundDiv]
  split
  · rw [Nat.add_mul]
    omega
  · omega

theorem roundDiv_mul {a b : Nat} (hb : 0 < b) : roundDiv (a * b) b = a := by
  simp only [roundDiv, Nat.mul_div_cancel _ hb, Nat.mul_mod_left]
  rw [if_neg (by omega)]

namespace Binary64

/-- The largest exponent of a finite number. -/
def maxExponent : Int := 971

/-- The least exponent of a finite number. -/
def minExponent : Int := -1074

/-- Rounds the positive quotient `a / b`. The two binary logarithms give the exponent of the
leading bit up to one; the comparison settles it. -/
def ofQuotient (negative : Bool) (a b : Nat) : Binary64 :=
  let s : Int := (a.log2 : Int) - b.log2
  let lead := if b * Nat.pow 2 s.toNat ≤ a * Nat.pow 2 (-s).toNat then s else s - 1
  let q := max (lead - 52) minExponent
  let m := roundDiv (a * Nat.pow 2 (-q).toNat) (b * Nat.pow 2 q.toNat)
  -- rounding up can give one bit more
  let (m, q) := if m = Nat.pow 2 53 then (Nat.pow 2 52, q + 1) else (m, q)
  if maxExponent < q then infinite negative else finite negative m q

/-- The number nearest to a decimal. Decimals beyond all finite numbers become infinite, and those
that are too small become zero, before any large power is computed. -/
def ofDecimal (d : Decimal) : Binary64 :=
  if d.coefficient = 0 then finite d.negative 0 minExponent
  else if 400 < d.exponent then infinite d.negative
  else if d.exponent < -(400 + (d.coefficient.log2 + 1 : Int)) then
    finite d.negative 0 minExponent
  else
    ofQuotient d.negative (d.coefficient * Nat.pow 10 d.exponent.toNat)
      (Nat.pow 10 (-d.exponent).toNat)

end Binary64

end RegexAutomata
