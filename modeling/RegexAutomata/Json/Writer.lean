/-
Writing JSON text.

Items are parted by a comma and a blank, a name and its value by a colon and a blank. Strings keep
the printable ASCII code points; all others are escaped, those above `0xFFFF` as a surrogate pair.
-/
import RegexAutomata.Json.Value
import RegexAutomata.Number.Shortest

namespace RegexAutomata.Json

/-- Numbers from `1e16` on and below `0.0001` have an exponent of at least two digits. -/
def layout : Layout := ⟨-4, 16, 2, "Infinity", "NaN"⟩

/-- A code point of sixteen bits in hexadecimal digits. -/
def unitEscape (n : Nat) : Text := CodePoint.ofChar '\\' :: CodePoint.ofChar 'u' :: Text.hex 4 n

/-- How a code point is written in a string. -/
def writePoint (c : CodePoint) : Text :=
  if c = '"' then "\\\""
  else if c = '\\' then "\\\\"
  else if c = '\n' then "\\n"
  else if c = '\r' then "\\r"
  else if c = '\t' then "\\t"
  else if c = '\x08' then "\\b"
  else if c = '\x0c' then "\\f"
  else if 0x20 ≤ c.value ∧ c.value ≤ 0x7E then [c]
  else if c.value ≤ 0xFFFF then unitEscape c.value
  else
    let n := c.value - 0x10000
    unitEscape (0xD800 + n / 0x400) ++ unitEscape (0xDC00 + n % 0x400)

def writeString (t : Text) : Text :=
  CodePoint.ofChar '"' :: (t.flatMap writePoint ++ [CodePoint.ofChar '"'])

mutual

def write : Value → Text
  | .null => "null"
  | .bool b => if b then "true" else "false"
  | .integer n => Text.ofInt n
  | .real x => layout.write x
  | .string t => writeString t
  | .array items => "[" ++ Text.join ", " (writeItems items) ++ "]"
  | .object members => "\x7b" ++ Text.join ", " (writeMembers members) ++ "\x7d"

def writeItems : List Value → List Text
  | [] => []
  | v :: rest => write v :: writeItems rest

def writeMembers : List (Text × Value) → List Text
  | [] => []
  | (name, v) :: rest => (writeString name ++ ": " ++ write v) :: writeMembers rest

end

end RegexAutomata.Json
