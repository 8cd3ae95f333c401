/-
Building automata from fragments.

A fragment is a pair of states of an automaton under construction: a word leads from its entry to
its exit. Each operation takes fragments apart from each other and gives one for the combined
expression, adding states and edges to the automaton.

* a literal is two new states and one edge;
* `join` runs one fragment after the other along an empty edge;
* `choose` puts two fragments side by side between two new states;
* `star` lets a fragment be skipped and repeated. It loops on the fragment's own ends, unless an
  edge enters the entry or leaves the exit; then the new edges could be taken from within the
  fragment, and the star gets two new states around it.
-/
import RegexAutomata.Nfa.Basic

namespace RegexAutomata.Nfa

/-- A part of an automaton, between two of its states. -/
structure Fragment where
  entry : Int
  exit : Int
deriving DecidableEq

/-- A fragment that reads one symbol. -/
def literal (a : Symbol) (n : Nfa) : Fragment × Nfa :=
  let (entry, n) := n.newState
  let (exit, n) := n.newState
  (⟨entry, exit⟩, n.link entry a exit)

/-- One fragment after the other. -/
def join (f g : Fragment) (n : Nfa) : Fragment × Nfa :=
  (⟨f.entry, g.exit⟩, n.link f.exit epsilon g.entry)

/-- Either of two fragments. -/
def choose (f g : Fragment) (n : Nfa) : Fragment × Nfa :=
  let (entry, n) := n.newState
  let (exit, n) := n.newState
  let n := n.link entry epsilon f.entry
  let n := n.link entry epsilon g.entry
  let n := n.link f.exit epsilon exit
  let n := n.link g.exit epsilon exit
  (⟨entry, exit⟩, n)

/-- Any of several fragments; the choices nest to the right, the innermost is built first. -/
def chooseAll (f : Fragment) : List Fragment → Nfa → Fragment × Nfa
  | [], n => (f, n)
  | g :: rest, n =>
    let (right, n) := chooseAll g rest n
    choose f right n

/-- Puts two new states around a fragment. -/
def wrap (f : Fragment) (n : Nfa) : Fragment × Nfa :=
  let (entry, n) := n.newState
  let (exit, n) := n.newState
  let n := n.link entry epsilon f.entry
  let n := n.link f.exit epsilon exit
  (⟨entry, exit⟩, n)

/-- Any number of repetitions of a fragment. -/
def star (f : Fragment) (n : Nfa) : Fragment × Nfa :=
  -- a loop on ends that are used from within could be left in the middle of a repetition
  let (f, n) := if n.hasIncoming f.entry || n.hasOutgoing f.exit then wrap f n else (f, n)
  let n := n.link f.exit epsilon f.entry
  let n := n.link f.entry epsilon f.exit
  (f, n)

@[simp] theorem alphabet_literal (a : Symbol) (n : Nfa) :
    (literal a n).2.alphabet = n.alphabet := by
  simp [literal, newState]

@[simp] theorem alphabet_join (f g : Fragment) (n : Nfa) :
    (join f g n).2.alphabet = n.alphabet := by
  simp [join]

@[simp] theorem alphabet_choose (f g : Fragment) (n : Nfa) :
    (choose f g n).2.alphabet = n.alphabet := by
  simp [choose, newState]

@[simp] theorem alphabet_chooseAll (f : Fragment) (fs : List Fragment) (n : Nfa) :
    (chooseAll f fs n).2.alphabet = n.alphabet := by
  induction fs generalizing f with
  | nil => rfl
  | cons g rest ih => rw [chooseAll, alphabet_choose, ih]

@[simp] theorem alphabet_star (f : Fragment) (n : Nfa) :
    (star f n).2.alphabet = n.alphabet := by
  simp only [star, alphabet_link]
  split
  · simp [wrap, newState]
  · rfl

end RegexAutomata.Nfa
