/-
JSON numerals.

A numeral is a sign, a whole part without superfluous zeros, a fraction and an exponent. A point
without a digit after it and an exponent letter without digits belong to what follows the numeral.
-/
import RegexAutomata.Json.Value

namespace RegexAutomata.Json

/-- The parts of a numeral as they are written. -/
structure Numeral where
  negative : Bool
  whole : Text
  /-- the digits after the point; empty without a point -/
  fraction : Text
  /-- the letter, the sign and the digits of the exponent; empty without an exponent -/
  exponent : Text
deriving DecidableEq

namespace Numeral

/-- The natural number with given decimal digits. -/
def digitsValue (digits : Text) : Nat := digits.foldl (fun n d => 10 * n + (d.value - 0x30)) 0

def digits (t : Text) : Text × Text := t.span CodePoint.isDigit

/-- The fraction at the start of a text, without its point. -/
def readFraction : Text → Text × Text
  | c :: rest =>
    if c = '.' then
      match digits rest with
      | ([], _) => ([], c :: rest)
      | (ds, rest) => (ds, rest)
    else ([], c :: rest)
  | [] => ([], [])

/-- The exponent at the start of a text, with its letter. -/
def readExponent : Text → Text × Text
  | c :: rest =>
    if c = 'e' ∨ c = 'E' then
      let (sign, rest') :=
        match rest with
        | s :: rest' => if s = '+' ∨ s = '-' then ([s], rest') else ([], rest)
        | [] => ([], [])
      match digits rest' with
      | ([], _) => ([], c :: rest)
      | (ds, rest'') => (c :: (sign ++ ds), rest'')
    else ([], c :: rest)
  | [] => ([], [])

def readWhole? : Text → Option (Text × Text)
  | c :: rest =>
    if c = '0' then some ([c], rest)
    else if c.isDigit then
      let (ds, rest) := digits rest
      some (c :: ds, rest)
    else none
  | [] => none

/-- The numeral at the start of a text and the rest of the text. -/
def read? (t : Text) : Option (Numeral × Text) :=
  let (negative, unsigned) :=
    match t with
    | c :: rest => if c = '-' then (true, rest) else (false, t)
    | [] => (false, t)
  (readWhole? unsigned).map fun (whole, rest) =>
    let (fraction, rest) := readFraction rest
    let (exponent, rest) := readExponent rest
    (⟨negative, whole, fraction, exponent⟩, rest)

/-- How many code points the numeral takes. -/
def width (n : Numeral) : Nat :=
  (if n.negative then 1 else 0) + n.whole.length
    + (if n.fraction.isEmpty then 0 else n.fraction.length + 1) + n.exponent.length

/-- A numeral with neither fraction nor exponent is an integer. -/
def isInteger (n : Numeral) : Bool := n.fraction.isEmpty && n.exponent.isEmpty

/-- The integer that the whole part stands for. -/
def toInt (n : Numeral) : Int :=
  if n.negative then -(digitsValue n.whole : Int) else digitsValue n.whole

/-- The power of ten that the exponent stands for. -/
def exponentValue (n : Numeral) : Int :=
  match n.exponent.drop 1 with
  | s :: rest =>
    if s = '-' then -(digitsValue rest : Int)
    else if s = '+' then digitsValue rest
    else digitsValue (s :: rest)
  | [] => 0

/-- The decimal that the numeral stands for. -/
def toDecimal (n : Numeral) : Decimal :=
  ⟨n.negative, digitsValue (n.whole ++ n.fraction), n.exponentValue - n.fraction.length⟩

/-- The longest whole part of an integer that is converted. -/
def maxIntegerDigits : Nat := 4300

end Numeral

end RegexAutomata.Json
