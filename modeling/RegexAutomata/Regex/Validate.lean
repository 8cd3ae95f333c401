/-
Telling whether an expression is valid.

An error in an expression is told in the same way wherever it is told: by its message, its kind and
the position at which it was found.
-/
import RegexAutomata.Json.Value
import RegexAutomata.Regex.Parser

namespace RegexAutomata.Regex

/-- The members that tell of an error. -/
def ParseError.members (e : ParseError) : List (Text × Json.Value) :=
  [("error", .string e.message), ("kind", .string e.kind.name), ("position", .integer e.position)]

/-- Whether an expression over an alphabet is valid, and the error in it if it is not. -/
def validate (regex : Text) (alphabet : Alphabet) : Json.Value :=
  match toNfa regex alphabet with
  | .ok _ => .object [("valid", .bool true)]
  | .error e => .object (("valid", .bool false) :: e.members)

end RegexAutomata.Regex
