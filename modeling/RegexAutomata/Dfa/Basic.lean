/-
Deterministic finite automata with partial moves.

State 0 is the start. A state has at most one move on a symbol; where it has none, a word is
rejected. Automata that come from the subset construction also carry, for each state, the set of
states that it stands for and a label that shows this set.

* `Dfa.next?_setMove_self`, `Dfa.next?_setMove_of_ne` — setting a move changes that move only.
-/
import RegexAutomata.Nfa.Basic

namespace RegexAutomata

namespace Dfa

/-- A move from a state to a state on a symbol. -/
structure Move where
  source : Int
  symbol : Symbol
  target : Int
deriving DecidableEq

/-- The state and the symbol that a move starts with. -/
def Move.key (m : Move) : Int × Symbol := (m.source, m.symbol)

/-- How the state and the symbol that a move starts with are shown. -/
def Move.displayKey (m : Move) : Text :=
  "TransitionKey(state=" ++ Text.ofInt m.source ++ ", symbol=" ++ m.symbol.quoted ++ ")"

end Dfa

/-- A deterministic automaton; `states` is the number of its states. -/
structure Dfa where
  alphabet : Alphabet
  states : Int := 0
  /-- the moves, in the order in which they were found -/
  moves : List Dfa.Move := []
  accepting : StateSet := ∅
  labels : List (Int × Text) := []
  subsets : List (Int × StateSet) := []

namespace Dfa

def start : Int := 0

def empty (alphabet : Alphabet) : Dfa := { alphabet }

/-- The target of the move from a state on a symbol, if there is one. -/
def next? (d : Dfa) (q : Int) (a : Symbol) : Option Int :=
  (d.moves.find? (·.key == (q, a))).map Move.target

def setStates (d : Dfa) (count : Int) : Dfa := { d with states := count }

def accept (d : Dfa) (q : Int) : Dfa := { d with accepting := d.accepting.insert q }

def setMove (d : Dfa) (move : Move) : Dfa := { d with moves := Keyed.put Move.key move d.moves }

def setLabel (d : Dfa) (q : Int) (label : Text) : Dfa :=
  { d with labels := Keyed.put Prod.fst (q, label) d.labels }

/-- A summary of the automaton in one line. -/
def display (d : Dfa) : Text :=
  "DFA(states=" ++ Text.ofInt d.states ++ ", accepting=["
    ++ Text.join ", " (d.accepting.toList.map Text.ofInt) ++ "], alphabet=" ++ d.alphabet.display
    ++ ")"

theorem next?_setMove_self (d : Dfa) (m : Move) :
    (d.setMove m).next? m.source m.symbol = some m.target := by
  show ((Keyed.put Move.key m d.moves).find? (·.key == m.key)).map Move.target = _
  rw [Keyed.find?_put_self]
  rfl

theorem next?_setMove_of_ne {d : Dfa} {m : Move} {q : Int} {a : Symbol} (h : (q, a) ≠ m.key) :
    (d.setMove m).next? q a = d.next? q a := by
  rw [next?, next?, setMove, Keyed.find?_put_of_ne h]

end Dfa

end RegexAutomata
