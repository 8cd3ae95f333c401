/-
Running a nondeterministic automaton.

The run keeps the set of all states that the automaton can be in. Reading a symbol moves from each
of them along the edges of the symbol and then along empty edges, with remembered closures where
there are any; a word is accepted if the final state is in the last set.
-/
import RegexAutomata.Nfa.Closure

namespace RegexAutomata.Nfa

/-- One move on a symbol, then any number of moves that read nothing. -/
def connected (n : Nfa) (q : Int) (a : Symbol) : StateSet :=
  match n.targets q a with
  | [] => ∅
  | moved => .ofList (moved ++ moved.flatMap fun r => (n.closure r).toList)

/-- The states of the automaton before it has read anything. -/
def startStates (n : Nfa) : StateSet := (n.closure n.start).insert n.start

/-- The states after reading a symbol. -/
def step (n : Nfa) (current : StateSet) (a : Symbol) : StateSet :=
  SortedSet.unionOver current.toList (n.connected · a)

/-- Whether reading a word from a set of states ends at the final state. -/
def acceptsFrom (n : Nfa) (current : StateSet) : Text → Bool
  | [] => n.finish ∈ current
  | c :: rest =>
    let following := n.step current [c]
    if following.isEmpty then false else acceptsFrom n following rest

def accepts (n : Nfa) (word : Text) : Bool := n.acceptsFrom n.startStates word

/-- The states whose closures are needed for the moves on a symbol. -/
def moved (n : Nfa) (current : StateSet) (a : Symbol) : List Int :=
  current.toList.flatMap (n.targets · a)

/-- The states whose closures are needed for reading a word. -/
def movedAll (n : Nfa) (current : StateSet) : Text → List Int
  | [] => []
  | c :: rest => n.moved current [c] ++ movedAll n (n.step current [c]) rest

end RegexAutomata.Nfa
