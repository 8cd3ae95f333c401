/-
The dictionary form of automata.

States are written as decimal numerals. A state without moves has no entry among the transitions,
symbols are in ascending order with the empty label first, and targets are in numerical order.
-/
import RegexAutomata.Dfa.Basic
import RegexAutomata.Nfa.Basic

namespace RegexAutomata

/-- The dictionary form of an automaton of either kind. -/
structure Dictionary where
  states : List Text
  alphabet : List Symbol
  /-- for each state with moves, the targets of each symbol -/
  transitions : List (Text × List (Symbol × List Text))
  start : Text
  accepting : List Text
deriving DecidableEq

namespace Dictionary

def rows (d : Dictionary) : List (Symbol × List Text) := d.transitions.flatMap Prod.snd

/-- How many transitions there are. -/
def transitionCount (d : Dictionary) : Nat := (d.rows.flatMap Prod.snd).length

/-- How many transitions read nothing. -/
def epsilonCount (d : Dictionary) : Nat :=
  ((d.rows.filter fun (a, _) => a = epsilon).flatMap Prod.snd).length

end Dictionary

/-- The edges of a state by ascending symbol, with numerals of its targets in ascending order. -/
def Nfa.Edges.toRows (edges : Nfa.Edges) : List (Symbol × List Text) :=
  (edges.mergeSort fun e f => (compare e.1 f.1).isLE).map fun (a, targets) =>
    (a, (targets.mergeSort fun p q => p ≤ q).map Text.ofInt)

def Nfa.toDictionary (n : Nfa) : Dictionary where
  states := (List.range n.size).map Text.ofNat
  alphabet := n.alphabet.toList
  transitions :=
    (n.nodes.toList.zipIdx.filter fun (node, _) => !node.edges.isEmpty).map fun (node, q) =>
      (Text.ofNat q, node.edges.toRows)
  start := Text.ofInt n.start
  accepting := [Text.ofInt n.finish]

/-- Orders moves by source, then by symbol. -/
def Dfa.Move.keyLE (m k : Dfa.Move) : Bool :=
  ((compare m.source k.source).then (compare m.symbol k.symbol)).isLE

/-- Puts moves that follow each other and leave the same state under one entry. -/
def Dfa.groupMoves : List Dfa.Move → List (Text × List (Symbol × List Text))
  | [] => []
  | m :: rest =>
    let row := (m.symbol, [Text.ofInt m.target])
    match groupMoves rest with
    | [] => [(Text.ofInt m.source, [row])]
    | (q, rows) :: entries =>
      if q = Text.ofInt m.source then (q, row :: rows) :: entries
      else (Text.ofInt m.source, [row]) :: (q, rows) :: entries

def Dfa.toDictionary (d : Dfa) : Dictionary where
  states := (List.range d.states.toNat).map Text.ofNat
  alphabet := d.alphabet.toList
  transitions := Dfa.groupMoves (d.moves.mergeSort Dfa.Move.keyLE)
  start := Text.ofInt Dfa.start
  accepting := d.accepting.toList.map Text.ofInt

end RegexAutomata
