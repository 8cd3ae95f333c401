/-
Nondeterministic finite automata with moves that read nothing.

The states are numbered from 0 in the order of their creation and never removed. Each keeps its
outgoing edges in the order in which they were added, symbol by symbol, and whether an edge enters
it. The automaton also remembers sets of states that were found reachable, until an edge is added.

* `Nfa.targets_link_self`, `Nfa.targets_link_of_ne` — linking two states adds one edge and keeps all
  others, in their order;
* `Nfa.size_link`, `Nfa.size_newState` — only `newState` creates states;
* `Nfa.addTransition_eq_ok_iff`, `Nfa.eq_of_addTransition_eq_error` — an edge is refused unless both
  ends exist and the symbol is known, and then nothing has changed.
-/
import RegexAutomata.Alphabet
import RegexAutomata.Keyed
import Std.Data.TreeMap

namespace RegexAutomata

/-- A finite set of states. A state is given by its number; questions may be asked about any
integer, whether it is the number of a state or not. -/
abbrev StateSet := SortedSet Int

namespace Nfa

/-- The edges that leave a state: symbols in the order of their first use, each with the states that
it leads to in the order in which they were added. -/
abbrev Edges := List (Symbol × List Int)

namespace Edges

def targets (a : Symbol) (es : Edges) : List Int := (es.lookup a).getD []

/-- Adds a target to a symbol: at the end of its targets, and a new symbol at the end of all. -/
def add (a : Symbol) (q : Int) (es : Edges) : Edges :=
  Keyed.put Prod.fst (a, targets a es ++ [q]) es

theorem targets_add_self (a : Symbol) (q : Int) (es : Edges) :
    targets a (add a q es) = targets a es ++ [q] := by
  rw [targets, add, Keyed.lookup_put_self, Option.getD_some]

theorem targets_add_of_ne {a b : Symbol} (h : a ≠ b) (q : Int) (es : Edges) :
    targets b (add a q es) = targets b es := by
  rw [targets, add, Keyed.lookup_put_of_ne (Ne.symm h), targets]

end Edges

structure Node where
  edges : Edges := []
  /-- whether some edge leads to the state -/
  entered : Bool := false
deriving DecidableEq

end Nfa

/-- A nondeterministic automaton with one start state and one final state. -/
structure Nfa where
  alphabet : Alphabet
  start : Int := 0
  finish : Int := 0
  nodes : Array Nfa.Node := #[]
  /-- states reachable without reading, for states where this was asked since the last new edge -/
  remembered : Std.TreeMap Int StateSet := ∅

namespace Nfa

def empty (alphabet : Alphabet) : Nfa := { alphabet }

def size (n : Nfa) : Nat := n.nodes.size

/-- Whether a number belongs to a state. -/
def IsAllocated (n : Nfa) (q : Int) : Prop := 0 ≤ q ∧ q < n.size

instance (n : Nfa) (q : Int) : Decidable (n.IsAllocated q) :=
  inferInstanceAs (Decidable (0 ≤ q ∧ q < n.size))

/-- What is stored for a state, if it exists. -/
def node? (n : Nfa) (q : Int) : Option Node :=
  if 0 ≤ q then n.nodes[q.toNat]? else none

/-- The states that a symbol leads to from a state, in the order in which the edges were added. -/
def targets (n : Nfa) (q : Int) (a : Symbol) : List Int :=
  match n.node? q with
  | none => []
  | some node => node.edges.targets a

def hasIncoming (n : Nfa) (q : Int) : Bool := (n.node? q).any (·.entered)

def hasOutgoing (n : Nfa) (q : Int) : Bool := (n.node? q).any fun node => !node.edges.isEmpty

/-- All edges, by state, then by symbol in the order of first use. -/
def transitions (n : Nfa) : List (Int × Symbol × List Int) :=
  n.nodes.toList.zipIdx.flatMap fun (node, q) => node.edges.map fun (a, ts) => ((q : Int), a, ts)

/-- A new state. -/
def newState (n : Nfa) : Int × Nfa :=
  (n.size, { n with nodes := n.nodes.push {} })

/-- Adds an edge between two states, unless it is there already. -/
def link (n : Nfa) (p : Int) (a : Symbol) (q : Int) : Nfa :=
  if n.targets p a |>.contains q then n
  else
    { n with
      nodes := (n.nodes.modify p.toNat fun node => { node with edges := node.edges.add a q }).modify
        q.toNat fun node => { node with entered := true }
      -- more may be reachable with the new edge
      remembered := ∅ }

/-- Why an edge was refused. -/
inductive TransitionError where
  /-- there is no such state -/
  | unallocated (q : Int) (size : Nat)
  /-- the symbol is neither empty nor in the alphabet -/
  | unknownSymbol (a : Symbol)
deriving DecidableEq

def TransitionError.message : TransitionError → Text
  | unallocated q size =>
    "State " ++ Text.ofInt q ++ " has not been allocated (NFA has " ++ Text.ofNat size
      ++ " states)"
  | unknownSymbol a => "Symbol '" ++ a ++ "' is not in the alphabet"

/-- A change that may be refused; what was changed before it was refused stays. -/
abbrev Edit (α : Type) := EStateM TransitionError Nfa α

def checkState (q : Int) : Edit Unit := do
  let n ← get
  unless n.IsAllocated q do throw (.unallocated q n.size)

def checkSymbol (a : Symbol) : Edit Unit := do
  let n ← get
  unless a = epsilon ∨ a ∈ n.alphabet do throw (.unknownSymbol a)

/-- Adds an edge after checking its source, its target and its symbol, in this order. -/
def addTransition (p : Int) (a : Symbol) (q : Int) : Edit Unit := do
  checkState p
  checkState q
  checkSymbol a
  modify (·.link p a q)

/-- Why a question about a position in the list of states has no answer. -/
inductive IndexError where
  | outOfRange
  /-- the number does not fit into a machine word -/
  | tooLarge
deriving DecidableEq

def IndexError.message : IndexError → Text
  | outOfRange => "list index out of range"
  | tooLarge => "cannot fit 'int' into an index-sized integer"

/-- Whether an edge leaves the state at a position; negative positions count from the end. -/
def hasOutgoingAt (n : Nfa) (i : Int) : Except IndexError Bool :=
  if i < -0x8000000000000000 ∨ 0x8000000000000000 ≤ i then .error .tooLarge
  else
    let q := if i < 0 then i + n.size else i
    if n.IsAllocated q then .ok (n.hasOutgoing q) else .error .outOfRange

/-- A summary of the automaton in one line. -/
def display (n : Nfa) : Text :=
  "NFA(states=" ++ Text.ofNat n.size ++ ", start=" ++ Text.ofInt n.start ++ ", end="
    ++ Text.ofInt n.finish ++ ", alphabet=" ++ n.alphabet.display ++ ")"

@[simp] theorem size_newState (n : Nfa) : n.newState.2.size = n.size + 1 := by
  simp [newState, size]

@[simp] theorem size_link (n : Nfa) (p : Int) (a : Symbol) (q : Int) :
    (n.link p a q).size = n.size := by
  unfold link
  split <;> simp [size]

@[simp] theorem alphabet_link (n : Nfa) (p : Int) (a : Symbol) (q : Int) :
    (n.link p a q).alphabet = n.alphabet := by
  unfold link
  split <;> rfl

theorem node?_eq_some_of_isAllocated {n : Nfa} {q : Int} (h : n.IsAllocated q) :
    ∃ node, n.node? q = some node := by
  obtain ⟨h₀, h₁⟩ := h
  have : q.toNat < n.nodes.size := by
    simp only [size] at h₁
    omega
  exact ⟨n.nodes[q.toNat], by simp [node?, h₀, this]⟩

theorem node?_eq_none_of_not_isAllocated {n : Nfa} {q : Int} (h : ¬n.IsAllocated q) :
    n.node? q = none := by
  simp only [IsAllocated, size] at h
  unfold node?
  split
  · rw [Array.getElem?_eq_none]
    omega
  · rfl

/-- An edge that is there already changes nothing. -/
theorem link_eq_self {n : Nfa} {p q : Int} {a : Symbol} (h : q ∈ n.targets p a) :
    n.link p a q = n := by
  simp [link, h]

/-- Linking adds the edge at the end of the targets of its symbol. -/
theorem targets_link_self {n : Nfa} {p q : Int} {a : Symbol} (hp : n.IsAllocated p)
    (h : q ∉ n.targets p a) : (n.link p a q).targets p a = n.targets p a ++ [q] := by
  obtain ⟨node, hnode⟩ := node?_eq_some_of_isAllocated hp
  have hp' := hp.1
  have hget : n.nodes[p.toNat]? = some node := by simpa [node?, hp'] using hnode
  rw [link, if_neg (by simpa using h)]
  simp only [targets, node?, hp', ↓reduceIte, Array.getElem?_modify, hget]
  by_cases hq : q.toNat = p.toNat <;> simp [hq, Edges.targets_add_self]

/-- Linking keeps the targets of all other pairs of a state and a symbol. -/
theorem targets_link_of_ne {n : Nfa} {p q r : Int} {a b : Symbol} (hp : 0 ≤ p)
    (h : (r, b) ≠ (p, a)) : (n.link p a q).targets r b = n.targets r b := by
  unfold link
  split
  · rfl
  · simp only [targets, node?]
    by_cases hr : 0 ≤ r
    · simp only [hr, ↓reduceIte, Array.getElem?_modify]
      by_cases hpr : p.toNat = r.toNat
      · have : p = r := by omega
        subst this
        have hab : a ≠ b := fun e => h (by rw [e])
        cases n.nodes[p.toNat]? with
        | none => simp
        | some node =>
          by_cases hq : q.toNat = p.toNat <;> simp [hq, Edges.targets_add_of_ne hab]
      · cases n.nodes[r.toNat]? with
        | none => simp
        | some node => by_cases hq : q.toNat = r.toNat <;> simp [hq, hpr]
    · simp [hr]

theorem checkState_eq (n : Nfa) (q : Int) : checkState q n =
    if n.IsAllocated q then .ok () n else .error (.unallocated q n.size) n := by
  show (if n.IsAllocated q then _ else _ : Edit Unit) n = _
  split <;> rfl

theorem checkSymbol_eq (n : Nfa) (a : Symbol) : checkSymbol a n =
    if a = epsilon ∨ a ∈ n.alphabet then .ok () n else .error (.unknownSymbol a) n := by
  show (if a = epsilon ∨ a ∈ n.alphabet then _ else _ : Edit Unit) n = _
  split <;> rfl

/-- The edge is added after all checks. -/
theorem addTransition_eq (n : Nfa) (p : Int) (a : Symbol) (q : Int) : addTransition p a q n =
    if n.IsAllocated p then
      if n.IsAllocated q then
        if a = epsilon ∨ a ∈ n.alphabet then .ok () (n.link p a q)
        else .error (.unknownSymbol a) n
      else .error (.unallocated q n.size) n
    else .error (.unallocated p n.size) n := by
  show EStateM.bind (checkState p) (fun _ => EStateM.bind (checkState q) fun _ =>
    EStateM.bind (checkSymbol a) fun _ n => .ok () (n.link p a q)) n = _
  by_cases hp : n.IsAllocated p
  · by_cases hq : n.IsAllocated q
    · by_cases ha : a = epsilon ∨ a ∈ n.alphabet
      · simp only [EStateM.bind, checkState_eq, checkSymbol_eq, if_pos hp, if_pos hq, if_pos ha]
      · simp only [EStateM.bind, checkState_eq, checkSymbol_eq, if_pos hp, if_pos hq, if_neg ha]
    · simp only [EStateM.bind, checkState_eq, if_pos hp, if_neg hq]
  · simp only [EStateM.bind, checkState_eq, if_neg hp]

/-- An edge is accepted exactly if both its ends exist and its symbol is empty or known. -/
theorem addTransition_eq_ok_iff {n m : Nfa} {p q : Int} {a : Symbol} :
    addTransition p a q n = .ok () m ↔
      n.IsAllocated p ∧ n.IsAllocated q ∧ (a = epsilon ∨ a ∈ n.alphabet) ∧ m = n.link p a q := by
  rw [addTransition_eq]
  by_cases hp : n.IsAllocated p <;> by_cases hq : n.IsAllocated q <;>
    by_cases ha : a = epsilon ∨ a ∈ n.alphabet <;> simp [hp, hq, ha, eq_comm]

/-- A refused edge changes nothing: the checks come first, and none of them changes anything. -/
theorem eq_of_addTransition_eq_error {n m : Nfa} {p q : Int} {a : Symbol} {e : TransitionError}
    (h : addTransition p a q n = .error e m) : m = n := by
  rw [addTransition_eq] at h
  split at h
  · split at h
    · split at h
      · cases h
      · cases h
        rfl
    · cases h
      rfl
  · cases h
    rfl

end Nfa

end RegexAutomata
