/-
Drawings of automata.

Accepting states come first, with a double circle, then an invisible node with an arrow to the start
state, then the states with their labels, then the edges, each group in ascending order.
-/
import RegexAutomata.Dfa.Basic
import RegexAutomata.Dot.Quote
import RegexAutomata.Nfa.Basic

namespace RegexAutomata.Dot

/-- An edge with its label. -/
structure Edge where
  source : Int
  target : Int
  label : Text
deriving DecidableEq

/-- Edges are ordered by source, then by target, then by label. -/
def Edge.le (e f : Edge) : Bool :=
  ((compare e.source f.source).then
    ((compare e.target f.target).then (compare e.label f.label))).isLE

/-- What is drawn of an automaton. -/
structure Drawing where
  name : Text
  start : Int
  accepting : List Int
  labels : List (Int × Text)
  edges : List Edge
deriving DecidableEq

/-- How edges that read nothing are labelled. -/
def epsilonLabel : Text := "epsilon"

def edgeLabel (a : Symbol) : Text := if a = epsilon then epsilonLabel else a

namespace Drawing

/-- The written form of the number of a state. -/
def stateName (q : Int) : Text := quote (Text.ofInt q)

def acceptingLine (q : Int) : Text := "\t" ++ stateName q ++ " [shape=doublecircle]\n"

/-- The lines of the invisible node and its arrow. -/
def startLines (q : Int) : Text :=
  "\tstart [label=\"\" shape=none]\n\tstart -> " ++ stateName q ++ "\n"

def labelLine : Int × Text → Text
  | (q, label) => "\t" ++ stateName q ++ " [label=" ++ quote label ++ "]\n"

def edgeLine (e : Edge) : Text :=
  "\t" ++ stateName e.source ++ " -> " ++ stateName e.target ++ " [label=" ++ quoteLabel e.label
    ++ "]\n"

/-- The whole text of a drawing. -/
def render (d : Drawing) : Text :=
  "digraph " ++ d.name ++ " \x7b\n" ++ d.accepting.flatMap acceptingLine ++ startLines d.start
    ++ d.labels.flatMap labelLine ++ d.edges.flatMap edgeLine ++ "\x7d\n"

end Drawing

/-- What is said of a value of some kind that cannot be drawn. -/
def refusal (kind : Text) : Text :=
  "Cannot serialize " ++ kind ++ ", expected an NFA or a DFA"

end RegexAutomata.Dot

namespace RegexAutomata

/-- The drawing of a nondeterministic automaton; states are labelled with their numbers. -/
def Nfa.drawing (n : Nfa) : Dot.Drawing where
  name := "nfa"
  start := n.start
  accepting := [n.finish]
  labels := (List.range n.size).map fun (q : Nat) => ((q : Int), Text.ofNat q)
  edges :=
    (n.transitions.flatMap fun (p, a, targets) =>
      targets.map fun q => Dot.Edge.mk p q (Dot.edgeLabel a)).mergeSort Dot.Edge.le

/-- The drawing of a deterministic automaton; a state without a label shows its number. -/
def Dfa.drawing (d : Dfa) : Dot.Drawing where
  name := "dfa"
  start := Dfa.start
  accepting := d.accepting.toList
  labels :=
    (List.range d.states.toNat).map fun (q : Nat) =>
      ((q : Int), (d.labels.lookup (q : Int)).getD (Text.ofNat q))
  edges := (d.moves.map fun m => Dot.Edge.mk m.source m.target m.symbol).mergeSort Dot.Edge.le

end RegexAutomata
