/-
Alphabets.

A symbol is a text and an alphabet a finite set of symbols. The symbols of a regular expression are
one code point long, so the empty text is free to mark the moves that read nothing; automata built
by hand may have longer symbols.

* `Alphabet.mem_ofTexts` — the alphabet of some texts holds exactly their code points.
-/
import RegexAutomata.SortedSet
import RegexAutomata.Json.Display

namespace RegexAutomata

/-- What an edge of an automaton reads. -/
abbrev Symbol := Text

/-- The label of edges that read nothing. -/
def epsilon : Symbol := []

abbrev Alphabet := SortedSet Symbol

namespace Alphabet

/-- Every code point that occurs in one of some texts. -/
def ofTexts (texts : List Text) : Alphabet :=
  SortedSet.ofList (texts.flatMap fun t => t.map ([·]))

/-- The symbol that a value denotes: a text of one code point. -/
def symbolOf? : Json.Value → Option Symbol
  | .string [c] => some [c]
  | _ => none

/-- The symbols that all values of a list denote, or the first value that denotes none. -/
def symbolsOf : List Json.Value → Except Json.Value (List Symbol)
  | [] => .ok []
  | v :: rest =>
    match symbolOf? v with
    | none => .error v
    | some a => (symbolsOf rest).map (a :: ·)

/-- The alphabet of the listed symbols, or the first value that is no symbol. -/
def ofValues (values : List Json.Value) : Except Json.Value Alphabet :=
  (symbolsOf values).map SortedSet.ofList

/-- What is said of a value that is no symbol. -/
def refusal (v : Json.Value) : Text :=
  "Alphabet symbols must be single characters, got " ++ Json.display v

theorem mem_ofTexts {a : Symbol} {texts : List Text} :
    a ∈ ofTexts texts ↔ ∃ t ∈ texts, ∃ c ∈ t, a = [c] := by
  simp [ofTexts, eq_comm]

def display (alphabet : Alphabet) : Text :=
  "[" ++ Text.join ", " (alphabet.toList.map Text.quoted) ++ "]"

end Alphabet

end RegexAutomata
