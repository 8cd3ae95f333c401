/-
Text as a list of Unicode code points.

A code point is a number below `0x110000`. Surrogates are code points too: text that was read
from escapes can hold a lone one, so a `CodePoint` is a little wider than a `Char`. Texts are
ordered element by element, a proper initial part first, which is the order of `compare` on lists.

* `CodePoint.ofChar_injective` — a character is determined by its code point;
* `CodePoint.toChar?_ofChar` — a character is read back from its code point;
* `Text.length_ofString` — a code point for each character.
-/
namespace RegexAutomata

/-- A Unicode code point, a surrogate included. -/
structure CodePoint where
  value : Nat
  valid : value < 0x110000
deriving DecidableEq

namespace CodePoint

def ofChar (c : Char) : CodePoint :=
  ⟨c.toNat, by
    have h := c.valid
    simp only [UInt32.isValidChar, Nat.isValidChar] at h
    simp only [Char.toNat]
    omega⟩

instance : Coe Char CodePoint := ⟨ofChar⟩

instance : Inhabited CodePoint := ⟨ofChar ' '⟩

/-- The code point with a given number, if there is one. -/
def ofNat? (n : Nat) : Option CodePoint :=
  if h : n < 0x110000 then some ⟨n, h⟩ else none

/-- Code points are ordered by number. -/
instance : Ord CodePoint := ⟨fun a b => compare a.value b.value⟩

instance : Std.TransOrd CodePoint where
  eq_swap := Std.OrientedOrd.eq_swap (α := Nat)
  isLE_trans := Std.TransOrd.isLE_trans (α := Nat)

instance : Std.LawfulEqOrd CodePoint where
  compare_self := Std.ReflOrd.compare_self (α := Nat)
  eq_of_compare {a b} h := by
    have h : compare a.value b.value = .eq := h
    have : a.value = b.value := Std.LawfulEqOrd.eq_of_compare h
    cases a
    cases b
    simp_all

/-- Half of a pair that stands for one code point in 16-bit units. -/
def isSurrogate (c : CodePoint) : Bool := 0xD800 ≤ c.value && c.value ≤ 0xDFFF

def isHighSurrogate (c : CodePoint) : Bool := 0xD800 ≤ c.value && c.value ≤ 0xDBFF

def isLowSurrogate (c : CodePoint) : Bool := 0xDC00 ≤ c.value && c.value ≤ 0xDFFF

def isDigit (c : CodePoint) : Bool := 0x30 ≤ c.value && c.value ≤ 0x39

def isLetter (c : CodePoint) : Bool :=
  (0x41 ≤ c.value && c.value ≤ 0x5A) || (0x61 ≤ c.value && c.value ≤ 0x7A)

/-- The character with this code point; a surrogate is no character. -/
def toChar? (c : CodePoint) : Option Char :=
  if c.isSurrogate then none else some (Char.ofNat c.value)

/-- ASCII capitals become small letters, all else stays. -/
def toLower (c : CodePoint) : CodePoint :=
  if h : 0x41 ≤ c.value ∧ c.value ≤ 0x5A then ⟨c.value + 0x20, by omega⟩ else c

theorem ofChar_injective {a b : Char} (h : ofChar a = ofChar b) : a = b := by
  have : a.toNat = b.toNat := congrArg value h
  exact Char.toNat_inj.mp this

theorem toChar?_ofChar (c : Char) : (ofChar c).toChar? = some c := by
  have hs : (ofChar c).isSurrogate = false := by
    have h := c.valid
    simp only [UInt32.isValidChar, Nat.isValidChar] at h
    simp only [isSurrogate, ofChar, Char.toNat, Bool.and_eq_false_iff]
    grind
  simp only [toChar?, hs, Bool.false_eq_true, ↓reduceIte, Option.some.injEq]
  exact Char.ofNat_toNat c

end CodePoint

/-- A text is the list of its code points. -/
abbrev Text := List CodePoint

namespace Text

def ofString (s : String) : Text := s.toList.map CodePoint.ofChar

instance : Coe String Text := ⟨ofString⟩

/-- The string of a text; a surrogate, which no string holds, becomes the replacement character. -/
def toString (t : Text) : String :=
  String.ofList (t.map fun c => c.toChar?.getD '\uFFFD')

/-- The decimal numeral of a natural number. -/
def ofNat (n : Nat) : Text := (Nat.toDigits 10 n).map CodePoint.ofChar

/-- The decimal numeral of an integer, with a minus sign if it is negative. -/
def ofInt : Int → Text
  | .ofNat n => ofNat n
  | .negSucc n => CodePoint.ofChar '-' :: ofNat (n + 1)

/-- A number in small hexadecimal digits, filled up with zeros to a given width. -/
def hex (width n : Nat) : Text :=
  let digits := (Nat.toDigits 16 n).map CodePoint.ofChar
  List.replicate (width - digits.length) (CodePoint.ofChar '0') ++ digits

/-- The texts one after the other, with a separator between each two. -/
def join (separator : Text) (parts : List Text) : Text := separator.intercalate parts

/-- The pieces of a text between the occurrences of a code point. -/
def splitOn (separator : CodePoint) : Text → List Text
  | [] => [[]]
  | c :: rest =>
    if c = separator then [] :: splitOn separator rest
    else
      match splitOn separator rest with
      | [] => [[c]]
      | piece :: pieces => (c :: piece) :: pieces

/-- The part before the first occurrence of a code point and the part after it, if it occurs. -/
def cut? (separator : CodePoint) : Text → Option (Text × Text)
  | [] => none
  | c :: rest =>
    if c = separator then some ([], rest)
    else (cut? separator rest).map fun (before, after) => (c :: before, after)

theorem length_ofString (s : String) : (ofString s).length = s.length := by
  simp [ofString, String.length_toList]

/-- The value of one hexadecimal digit, capital or small. -/
def hexDigit? (c : CodePoint) : Option Nat :=
  if c.isDigit then some (c.value - 0x30)
  else if 0x61 ≤ c.value ∧ c.value ≤ 0x66 then some (c.value - 0x61 + 10)
  else if 0x41 ≤ c.value ∧ c.value ≤ 0x46 then some (c.value - 0x41 + 10)
  else none

end Text

end RegexAutomata
