/-
The content that all endpoints share.

Checks are made in a fixed order and the first that fails is reported: the body is an object, has an
expression that is not too long, a list of texts as inputs if it has inputs at all, and an alphabet
of symbols if it has one. Without an alphabet, the code points of the inputs are taken.
-/
import RegexAutomata.Service.Refusal

namespace RegexAutomata.Service

/-- Limits of the service. -/
structure Settings where
  /-- the longest expression that is read -/
  maxRegexLength : Int := 256
  /-- the largest body that is read, in bytes -/
  maxBodySize : Int := 2621440

/-- The checked content of a request. -/
structure Content where
  regex : Text
  inputs : List Text
  alphabet : Alphabet
  /-- which automaton to draw, as given -/
  automaton : Option Json.Value

namespace Content

def texts? : List Json.Value → Option (List Text)
  | [] => some []
  | .string t :: rest => (texts? rest).map (t :: ·)
  | _ :: _ => none

/-- The inputs of a request; none are given if there is no such member. -/
def inputsOf : Option Json.Value → Except Refusal (List Text)
  | none => .ok []
  | some (.array items) =>
    match texts? items with
    | some inputs => .ok inputs
    | none => .error .badInputs
  | some _ => .error .badInputs

def listedAlphabet (symbols : List Json.Value) : Except Refusal Alphabet :=
  match Alphabet.ofValues symbols with
  | .ok alphabet => .ok alphabet
  | .error v => .error (.badSymbol v)

/-- The alphabet of a request, which comes from the inputs if it is not given or null. -/
def alphabetOf (inputs : List Text) : Option Json.Value → Except Refusal Alphabet
  | none => .ok (.ofTexts inputs)
  | some .null => .ok (.ofTexts inputs)
  | some (.string t) => listedAlphabet (t.map fun c => .string [c])
  | some (.array symbols) => listedAlphabet symbols
  | some _ => .error .badAlphabet

def ofValue (settings : Settings) (v : Json.Value) : Except Refusal Content :=
  match v, v.member? "regex" with
  | .object _, some (.string regex) => do
    if settings.maxRegexLength < regex.length then
      throw (.regexTooLong settings.maxRegexLength)
    let inputs ← inputsOf (v.member? "inputs")
    let alphabet ← alphabetOf inputs (v.member? "alphabet")
    return { regex, inputs, alphabet, automaton := v.member? "automaton" }
  | .object _, _ => .error .missingRegex
  | _, _ => .error .notObject

end Content

end RegexAutomata.Service
