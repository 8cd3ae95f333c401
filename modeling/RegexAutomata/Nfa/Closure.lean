/-
The states that are reachable without reading.

`Nfa.reach` walks along edges with the empty label from a list of states to visit, keeping those
that it has seen; the number of states bounds the number of steps that see a new one. The closure of
a state holds what is reachable by one such edge or more, so the state itself only if it lies on a
cycle. Answers can be remembered; a remembered answer is given again without a walk.
-/
import RegexAutomata.Nfa.Basic

namespace RegexAutomata.Nfa

/-- Adds to the seen states those that are reachable from the states still to visit. -/
def reach (n : Nfa) : Nat → Std.TreeSet Int → List Int → Std.TreeSet Int
  | 0, seen, _ => seen
  | fuel + 1, seen, work =>
    match work.dropWhile seen.contains with
    | [] => seen
    | q :: rest => reach n fuel (seen.insert q) (n.targets q epsilon ++ rest)

/-- Some states of the automaton and all that are reachable from them without reading. -/
def saturate (n : Nfa) (states : List Int) : StateSet := .ofTree (n.reach (n.size + 1) ∅ states)

/-- The states reachable by one empty edge or more, found by a walk. -/
def searchClosure (n : Nfa) (q : Int) : StateSet := n.saturate (n.targets q epsilon)

/-- The states reachable from a state by one empty edge or more. -/
def closure (n : Nfa) (q : Int) : StateSet :=
  match n.remembered[q]? with
  | some found => found
  | none => n.searchClosure q

def remember (n : Nfa) (q : Int) : Nfa :=
  { n with remembered := n.remembered.insert q (n.closure q) }

/-- A choice of states: one state, or several choices together. -/
inductive Selection where
  | state (q : Int)
  | all (parts : List Selection)

namespace Selection

mutual

def states : Selection → List Int
  | .state q => [q]
  | .all parts => statesOfParts parts

def statesOfParts : List Selection → List Int
  | [] => []
  | s :: rest => states s ++ statesOfParts rest

end

end Selection

/-- The closures of all states of a selection, united. -/
def closureOf (n : Nfa) (s : Selection) : StateSet := SortedSet.unionOver s.states n.closure

def stateList (n : Nfa) : List Int := (List.range n.size).map Int.ofNat

def rememberAll (n : Nfa) (states : List Int) : Nfa := states.foldl remember n

end RegexAutomata.Nfa
