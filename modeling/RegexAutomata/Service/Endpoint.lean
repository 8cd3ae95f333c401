/-
The four endpoints and what they answer to checked content.
-/
import RegexAutomata.Dfa.Subsets
import RegexAutomata.Dfa.Trace
import RegexAutomata.Dictionary
import RegexAutomata.Dot.Drawing
import RegexAutomata.Regex.Parser
import RegexAutomata.Service.Content

namespace RegexAutomata.Service

/-- What can be asked of the service. -/
inductive Endpoint where
  | toNfa
  | toDfa
  | simulate
  | exportDot
deriving DecidableEq

/-- An answer to a request with good content. -/
inductive Answer where
  | json (body : Json.Value)
  | drawing (text : Text)

namespace Endpoint

/-- An object with the given members. -/
def object (members : List (String × Json.Value)) : Json.Value :=
  .object (members.map fun (name, v) => (Text.ofString name, v))

def texts (items : List Text) : Json.Value := .array (items.map .string)

def count (n : Nat) : Json.Value := .integer n

/-- The transitions of a dictionary as a value. -/
def transitions (d : Dictionary) : Json.Value :=
  .object (d.transitions.map fun (q, rows) =>
    (q, .object (rows.map fun (a, targets) => (a, texts targets))))

def dictionary (d : Dictionary) : Json.Value :=
  object [("states", texts d.states), ("alphabet", texts d.alphabet),
    ("transitions", transitions d), ("startingState", .string d.start),
    ("acceptingStates", texts d.accepting)]

def move (m : Dfa.Move) : Json.Value :=
  .array [.integer m.source, .string m.symbol, .integer m.target]

/-- The members that tell about a trace. -/
def trace (t : Dfa.Trace) : List (String × Json.Value) :=
  let path := Json.Value.array (t.path.map move)
  match t.rejection with
  | none => [("accepted", .bool true), ("path", path)]
  | some (cause, position) =>
    [("accepted", .bool false), ("path", path), ("rejection_reason", .string cause.message),
      ("rejection_position", count position)]

/-- The answer with the nondeterministic automaton and its size. -/
def nfaBody (content : Content) (n : Nfa) : Json.Value :=
  let d := n.toDictionary
  object [("success", .bool true), ("regex", .string content.regex),
    ("alphabet", texts content.alphabet.toList), ("nfa", dictionary d),
    ("statistics", object [("states_count", count d.states.length),
      ("transitions_count", count d.transitionCount),
      ("epsilon_transitions_count", count d.epsilonCount)])]

/-- The answer with both automata and their sizes. -/
def dfaBody (content : Content) (n : Nfa) : Json.Value :=
  let dfa := Dfa.ofNfa n content.alphabet
  let nd := n.toDictionary
  let dd := dfa.toDictionary
  object [("success", .bool true), ("regex", .string content.regex),
    ("alphabet", texts content.alphabet.toList), ("nfa", dictionary nd), ("dfa", dictionary dd),
    ("subset_labels", .object (dfa.labels.map fun (q, label) => (Text.ofInt q, .string label))),
    ("statistics", object [("nfa_states_count", count nd.states.length),
      ("dfa_states_count", count dd.states.length),
      ("dfa_transitions_count", count dd.transitionCount),
      ("accepting_states_count", count dd.accepting.length)])]

/-- The answer with one entry for each input. -/
def simulateBody (content : Content) (n : Nfa) : Json.Value :=
  let dfa := Dfa.ofNfa n content.alphabet
  let traces := content.inputs.map fun input => (input, dfa.trace input)
  object [("regex", .string content.regex), ("alphabet", texts content.alphabet.toList),
    ("results", .array (traces.map fun (input, t) => object (("input", .string input) :: trace t))),
    ("accepted_count", count (traces.filter fun (_, t) => t.accepted).length)]

/-- Which of the two automata to draw: the deterministic one unless the other is asked for. -/
def drawsNfa : Option Json.Value → Except Refusal Bool
  | none => .ok false
  | some (.string t) =>
    if t = "dfa" then .ok false else if t = "nfa" then .ok true else .error .badAutomaton
  | some _ => .error .badAutomaton

/-- The answer with a drawing, if it has bytes. -/
def drawing (d : Dot.Drawing) : Except Refusal Answer :=
  let text := d.render
  match Utf8.firstSurrogates? text with
  | none => .ok (.drawing text)
  | some (position, length, first) => .error (.unencodable position length first)

def automaton (content : Content) : Except Refusal Nfa :=
  match Regex.toNfa content.regex content.alphabet with
  | .ok n => .ok n
  | .error e => .error (.parse e)

def answer (content : Content) : Endpoint → Except Refusal Answer
  | toNfa => return .json (nfaBody content (← automaton content))
  | toDfa => return .json (dfaBody content (← automaton content))
  | simulate => return .json (simulateBody content (← automaton content))
  | exportDot => do
    let nfaWanted ← drawsNfa content.automaton
    let n ← automaton content
    drawing (if nfaWanted then n.drawing else (Dfa.ofNfa n content.alphabet).drawing)

end Endpoint

end RegexAutomata.Service
