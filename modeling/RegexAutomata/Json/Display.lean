/-
How values are shown in messages.

Constants are capitalised, `None` stands for the null value, texts are quoted and numbers with a
fraction or an exponent always show a point or an exponent.
-/
import RegexAutomata.Json.Value
import RegexAutomata.Number.Shortest
import RegexAutomata.Text.Quoted

namespace RegexAutomata.Json

/-- Shown numbers are laid out as written ones; the names of the special ones are short. -/
def displayLayout : Layout := ⟨-4, 16, 2, "inf", "nan"⟩

mutual

def display : Value → Text
  | .null => "None"
  | .bool b => if b then "True" else "False"
  | .integer n => Text.ofInt n
  | .real x => displayLayout.write x
  | .string t => t.quoted
  | .array items => "[" ++ Text.join ", " (displayItems items) ++ "]"
  | .object members => "\x7b" ++ Text.join ", " (displayMembers members) ++ "\x7d"

def displayItems : List Value → List Text
  | [] => []
  | v :: rest => display v :: displayItems rest

def displayMembers : List (Text × Value) → List Text
  | [] => []
  | (name, v) :: rest => (name.quoted ++ ": " ++ display v) :: displayMembers rest

end

/-- What kind of value it is, by its usual short name. -/
def Value.kindName : Value → Text
  | .null => "NoneType"
  | .bool _ => "bool"
  | .integer _ => "int"
  | .real _ => "float"
  | .string _ => "str"
  | .array _ => "list"
  | .object _ => "dict"

end RegexAutomata.Json
