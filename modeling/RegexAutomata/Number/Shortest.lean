/-
The shortest decimal that reads back as a given binary number, and its written form.

The numbers that round to `significand * 2 ^ exponent` form an interval. On the grids of one, two,
... seventeen digits the two neighbours of the number are tested; the first grid with a hit gives
the digits, of two hits the nearer, and of two equally near the even one. A `Layout` says how
digits are written.
-/
import RegexAutomata.Number.Binary64

namespace RegexAutomata

namespace Shortest

/-- Compares `a * 10 ^ i` with `n * 2 ^ j` exactly. -/
def compareScaled (a : Nat) (i : Int) (n : Nat) (j : Int) : Ordering :=
  compare (a * Nat.pow 10 i.toNat * Nat.pow 2 (-j).toNat)
    (n * Nat.pow 2 j.toNat * Nat.pow 10 (-i).toNat)

/-- Whether `digits * 10 ^ g` rounds to `m * 2 ^ q`: it lies between the halfway points to the two
neighbours, the ends included exactly if `m` is even. Below a power of two the lower neighbour is
only half as far away. -/
def readsBack (m : Nat) (q : Int) (digits : Nat) (g : Int) : Bool :=
  let narrow := m = Nat.pow 2 52 ∧ Binary64.minExponent < q
  -- the halfway points in quarters of the last place
  let low := compareScaled digits g (if narrow then 4 * m - 1 else 4 * m - 2) (q - 2)
  let high := compareScaled digits g (4 * m + 2) (q - 2)
  let even := m % 2 = 0
  (low = .gt || (even && low = .eq)) && (high = .lt || (even && high = .eq))

/-- The least of four guesses `k` around the logarithm with `m * 2 ^ q < 10 ^ k`. -/
def scale (m : Nat) (q : Int) : Int :=
  let guess := (((m.log2 : Int) + q) * 30103) / 100000
  ([guess - 1, guess, guess + 1].find? fun k => compareScaled 1 k m q = .gt).getD (guess + 2)

/-- The neighbour of `m * 2 ^ q` on the grid `10 ^ g` that reads back, if one does. -/
def onGrid? (m : Nat) (q : Int) (g : Int) : Option Nat :=
  let a := m * Nat.pow 2 q.toNat * Nat.pow 10 (-g).toNat
  let b := Nat.pow 2 (-q).toNat * Nat.pow 10 g.toNat
  let low := a / b
  -- if both neighbours read back, the nearer one is taken
  match readsBack m q low g, readsBack m q (low + 1) g with
  | true, true => some (roundDiv a b)
  | true, false => some low
  | false, true => some (low + 1)
  | false, false => none

/-- Digits and grid of the shortest decimal among the grids from `n` digits on; after the last grid
the exact value is given. -/
def search (m : Nat) (q k : Int) : Nat → Nat → Nat × Int
  | 0, _ =>
    if 0 ≤ q then (m * Nat.pow 2 q.toNat, 0) else (m * Nat.pow 5 (-q).toNat, q)
  | fuel + 1, n =>
    match onGrid? m q (k - n) with
    | some digits => (digits, k - n)
    | none => search m q k fuel (n + 1)

/-- Moves trailing zeros of the digits into the exponent. -/
def strip : Nat → Nat → Int → Nat × Int
  | 0, digits, g => (digits, g)
  | fuel + 1, digits, g =>
    if digits % 10 = 0 then strip fuel (digits / 10) (g + 1) else (digits, g)

/-- Digits and decimal exponent of the shortest decimal for a positive `m * 2 ^ q`. -/
def decimal (m : Nat) (q : Int) : Nat × Int :=
  let (digits, g) := search m q (scale m q) 17 1
  strip 400 digits g

end Shortest

/-- How a floating-point number is written. -/
structure Layout where
  /-- numbers whose leading digit stands for a smaller power of ten get an exponent -/
  leastPositional : Int
  /-- numbers whose leading digit stands for this power of ten or more get an exponent -/
  leastScientific : Int
  /-- the least number of digits of a written exponent -/
  exponentDigits : Nat
  infinity : String
  nan : String

namespace Layout

/-- Digits with the point after the leading one, and the power of ten of that digit. -/
def scientific (layout : Layout) (digits : Text) (power : Int) : Text :=
  let exponent := Text.ofNat power.natAbs
  let fraction := if digits.length ≤ 1 then [] else CodePoint.ofChar '.' :: digits.drop 1
  digits.take 1 ++ fraction
    ++ [CodePoint.ofChar 'e', CodePoint.ofChar (if power < 0 then '-' else '+')]
    ++ List.replicate (layout.exponentDigits - exponent.length) (CodePoint.ofChar '0') ++ exponent

/-- Digits with the point in its place and at least one digit on each side of it. -/
def positional (digits : Text) (power : Int) : Text :=
  let zero := CodePoint.ofChar '0'
  let point := CodePoint.ofChar '.'
  if power < 0 then
    zero :: point :: (List.replicate (-power - 1).toNat zero ++ digits)
  else
    let whole := power.toNat + 1
    let fraction := digits.drop whole
    digits.take whole ++ List.replicate (whole - digits.length) zero ++ [point]
      ++ (if fraction.isEmpty then [zero] else fraction)

def write (layout : Layout) : Binary64 → Text
  | .nan => layout.nan
  | .infinite negative => sign negative ++ Text.ofString layout.infinity
  | .finite negative m q =>
    if m = 0 then sign negative ++ positional [CodePoint.ofChar '0'] 0
    else
      let (coefficient, exponent) := Shortest.decimal m q
      let digits := Text.ofNat coefficient
      let power := exponent + (digits.length : Int) - 1
      if layout.leastPositional ≤ power ∧ power < layout.leastScientific then
        sign negative ++ positional digits power
      else sign negative ++ layout.scientific digits power
where
  sign (negative : Bool) : Text := if negative then [CodePoint.ofChar '-'] else []

end Layout

end RegexAutomata
