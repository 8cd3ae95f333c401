/-
The subset construction.

A state of the deterministic automaton stands for a set of states of the nondeterministic one. The
sets are numbered as they are found, from the start set on. A queue holds the states whose moves
are still to be computed; a state is put into it for every move that leads to it, and is skipped if
its turn comes again.

`Subsets.step` takes one state from the queue. Each state takes part with its moves once, so the
number of states and of symbols bounds the number of steps.
-/
import RegexAutomata.Dfa.Basic
import RegexAutomata.Nfa.Run

namespace RegexAutomata

/-- The label of a collection of states: the numbers in ascending order, in braces. -/
def subsetLabel (states : List Int) : Text :=
  "\x7b" ++ Text.join ", " ((states.mergeSort fun p q => p ≤ q).map Text.ofInt) ++ "\x7d"

namespace Dfa

/-- How far the construction has come. -/
structure Subsets where
  /-- the set that each state stands for, by the number of the state -/
  found : Array StateSet
  /-- the number of each set that was found, by its elements -/
  numbers : Std.TreeMap (List Int) Nat
  /-- the states whose turn is still to come -/
  queue : List Nat
  /-- the states whose moves are known -/
  processed : Std.TreeSet Nat := ∅
  moves : Array Move := #[]

namespace Subsets

/-- The construction before the first step: only the start set is known. -/
def initial (n : Nfa) : Subsets :=
  { found := #[n.startStates], numbers := .ofList [(n.startStates.toList, 0)], queue := [0] }

/-- The number of a set, which is a new one if the set was not found before. -/
def number (b : Subsets) (s : StateSet) : Nat × Subsets :=
  match b.numbers[s.toList]? with
  | some q => (q, b)
  | none =>
    let q := b.found.size
    (q, { b with found := b.found.push s, numbers := b.numbers.insert s.toList q })

/-- Adds the move of a state on a symbol, and its target to the queue. -/
def addMove (n : Nfa) (q : Nat) (current : StateSet) (b : Subsets) (a : Symbol) : Subsets :=
  let following := n.step current a
  if following.isEmpty then b
  else
    let (r, b) := b.number following
    -- also a set that was found before goes into the queue, and is skipped there
    { b with queue := b.queue ++ [r], moves := b.moves.push ⟨q, a, r⟩ }

/-- Takes a state from the queue and adds its moves, unless they are known. -/
def step (n : Nfa) (symbols : List Symbol) (b : Subsets) : Option Subsets :=
  match b.queue with
  | [] => none
  | q :: queue =>
    if b.processed.contains q then some { b with queue }
    else
      let b := { b with queue, processed := b.processed.insert q }
      match b.found[q]? with
      | none => some b
      | some current => some (symbols.foldl (addMove n q current) b)

/-- Makes up to the given number of steps. -/
def run (n : Nfa) (symbols : List Symbol) : Nat → Subsets → Subsets
  | 0, b => b
  | fuel + 1, b =>
    match step n symbols b with
    | none => b
    | some b => run n symbols fuel b

/-- The construction when the queue is empty. -/
def complete (n : Nfa) (symbols : List Symbol) : Subsets :=
  run n symbols (Nat.pow 2 n.size * symbols.length + 2) (initial n)

end Subsets

/-- The deterministic automaton of a nondeterministic one, with moves on the symbols of the given
alphabet. -/
def ofNfa (n : Nfa) (alphabet : Alphabet) : Dfa :=
  let b := Subsets.complete n alphabet.toList
  let subsets := b.found.toList.zipIdx.map fun (s, q) => ((q : Int), s)
  { alphabet
    states := b.found.size
    moves := b.moves.toList
    accepting := .ofList ((subsets.filter fun (_, s) => n.finish ∈ s).map Prod.fst)
    labels := subsets.map fun (q, s) => (q, subsetLabel s.toList)
    subsets }

end Dfa

end RegexAutomata
