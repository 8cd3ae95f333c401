/-
The edges of an automaton, and what holds of them after any building steps.

An automaton is seen here through its edge relation `Nfa.Edge` only.

* `edge_newState`, `edge_link` — a new state adds no edge, and linking two states adds one;
* `WellFormed` — every edge ends at a state, it can be told which states are entered and left, and
  what is remembered is what can be reached;
* `LabelsKnown` — every edge reads nothing or a symbol of the alphabet.

Both are kept by new states and new edges.
-/
import RegexAutomata.Nfa.Basic
import Mathlib.Logic.Relation
import Mathlib.Tactic.ByContra
import Mathlib.Tactic.SplitIfs

namespace RegexAutomata.Nfa

/-- An edge leads from a state to a state and reads a symbol. -/
def Edge (n : Nfa) (p : Int) (a : Symbol) (q : Int) : Prop := q ∈ n.targets p a

/-- An edge that reads nothing. -/
def Silent (n : Nfa) (p q : Int) : Prop := n.Edge p epsilon q

/-- Edges leave states only. -/
theorem Edge.isAllocated {n : Nfa} {p q : Int} {a : Symbol} (h : n.Edge p a q) :
    n.IsAllocated p := by
  by_contra hp
  rw [Edge, targets, node?_eq_none_of_not_isAllocated hp] at h
  exact absurd h List.not_mem_nil

@[simp] theorem isAllocated_newState {n : Nfa} {q : Int} :
    n.newState.2.IsAllocated q ↔ 0 ≤ q ∧ q < n.size + 1 := by
  simp [IsAllocated]

@[simp] theorem isAllocated_link {n : Nfa} {p q r : Int} {a : Symbol} :
    (n.link p a q).IsAllocated r ↔ n.IsAllocated r := by
  simp [IsAllocated]

/-! ### A new state -/

theorem node?_newState (n : Nfa) (q : Int) :
    n.newState.2.node? q = if q = n.size then some {} else n.node? q := by
  by_cases hq : 0 ≤ q
  · have hsize : n.nodes.size = n.size := rfl
    simp only [node?, newState, hq, ↓reduceIte, Array.getElem?_push, hsize]
    by_cases h : q = n.size
    · rw [if_pos (by omega), if_pos h]
    · rw [if_neg (by omega), if_neg h]
  · have : q ≠ n.size := by omega
    simp [node?, hq, this]

theorem node?_size (n : Nfa) : n.node? n.size = none :=
  node?_eq_none_of_not_isAllocated (by simp [IsAllocated])

@[simp] theorem targets_newState (n : Nfa) (q : Int) (a : Symbol) :
    n.newState.2.targets q a = n.targets q a := by
  rw [targets, targets, node?_newState]
  by_cases h : q = n.size
  · rw [if_pos h, h, node?_size]
    rfl
  · rw [if_neg h]

@[simp] theorem edge_newState {n : Nfa} {p q : Int} {a : Symbol} :
    n.newState.2.Edge p a q ↔ n.Edge p a q := by
  rw [Edge, targets_newState, Edge]

@[simp] theorem hasIncoming_newState (n : Nfa) (q : Int) :
    n.newState.2.hasIncoming q = n.hasIncoming q := by
  rw [hasIncoming, hasIncoming, node?_newState]
  by_cases h : q = n.size
  · rw [if_pos h, h, node?_size]
    rfl
  · rw [if_neg h]

@[simp] theorem hasOutgoing_newState (n : Nfa) (q : Int) :
    n.newState.2.hasOutgoing q = n.hasOutgoing q := by
  rw [hasOutgoing, hasOutgoing, node?_newState]
  by_cases h : q = n.size
  · rw [if_pos h, h, node?_size]
    rfl
  · rw [if_neg h]

/-! ### A new edge -/

/-- What a new edge does to what is stored for the states. -/
theorem node?_link {n : Nfa} {p q : Int} {a : Symbol} (hp : 0 ≤ p) (hq : 0 ≤ q)
    (h : ¬n.Edge p a q) (r : Int) :
    (n.link p a q).node? r = (n.node? r).map fun node =>
      { edges := if r = p then node.edges.add a q else node.edges
        entered := if r = q then true else node.entered } := by
  rw [Edge] at h
  rw [link, if_neg (by simpa using h)]
  by_cases hr : 0 ≤ r
  · have hpr : p.toNat = r.toNat ↔ r = p := by omega
    have hqr : q.toNat = r.toNat ↔ r = q := by omega
    simp only [node?, hr, ↓reduceIte, Array.getElem?_modify, hpr, hqr]
    cases n.nodes[r.toNat]? with
    | none => simp
    | some node => split_ifs <;> rfl
  · simp [node?, hr]

theorem edge_link {n : Nfa} {p q r s : Int} {a b : Symbol} (hp : n.IsAllocated p) :
    (n.link p a q).Edge r b s ↔ n.Edge r b s ∨ (r = p ∧ b = a ∧ s = q) := by
  by_cases hq : q ∈ n.targets p a
  · rw [link_eq_self hq]
    constructor
    · exact Or.inl
    · rintro (h | ⟨rfl, rfl, rfl⟩)
      · exact h
      · exact hq
  · by_cases h : r = p ∧ b = a
    · obtain ⟨rfl, rfl⟩ := h
      rw [Edge, targets_link_self hp hq, List.mem_append, List.mem_singleton]
      simp [Edge]
    · have hne : (r, b) ≠ (p, a) := by simpa using h
      rw [Edge, targets_link_of_ne hp.1 hne, Edge]
      simp only [iff_self_or]
      exact fun e => absurd ⟨e.1, e.2.1⟩ h

theorem hasIncoming_link {n : Nfa} {p q : Int} {a : Symbol} (hp : n.IsAllocated p)
    (hq : n.IsAllocated q) (h : ¬n.Edge p a q) (r : Int) :
    (n.link p a q).hasIncoming r = (n.hasIncoming r || r = q) := by
  obtain ⟨node, hnode⟩ := node?_eq_some_of_isAllocated hq
  rw [hasIncoming, node?_link hp.1 hq.1 h, hasIncoming]
  by_cases hr : r = q
  · subst hr
    simp [hnode]
  · cases n.node? r <;> simp [hr]

theorem Edges.mem_targets_singleton {a b : Symbol} {q r : Int} :
    q ∈ targets a [(b, [r])] ↔ a = b ∧ q = r := by
  by_cases h : a = b
  · simp [targets, h]
  · simp [targets, List.lookup_cons, beq_eq_false_iff_ne.mpr h, h]

theorem Edges.add_ne_nil (a : Symbol) (q : Int) (es : Edges) : es.add a q ≠ [] :=
  Keyed.put_ne_nil

theorem hasOutgoing_link {n : Nfa} {p q : Int} {a : Symbol} (hp : n.IsAllocated p)
    (hq : n.IsAllocated q) (h : ¬n.Edge p a q) (r : Int) :
    (n.link p a q).hasOutgoing r = (n.hasOutgoing r || r = p) := by
  obtain ⟨node, hnode⟩ := node?_eq_some_of_isAllocated hp
  rw [hasOutgoing, node?_link hp.1 hq.1 h, hasOutgoing]
  by_cases hr : r = p
  · subst hr
    simp [hnode, Edges.add_ne_nil]
  · cases n.node? r <;> simp [hr]

/-- The states that are entered after linking. -/
theorem exists_edge_link_to {n : Nfa} {p q r : Int} {a : Symbol} (hp : n.IsAllocated p) :
    (∃ s b, (n.link p a q).Edge s b r) ↔ (∃ s b, n.Edge s b r) ∨ r = q := by
  simp only [edge_link hp]
  constructor
  · rintro ⟨s, b, hs | ⟨-, -, rfl⟩⟩
    · exact .inl ⟨s, b, hs⟩
    · exact .inr rfl
  · rintro (⟨s, b, hs⟩ | rfl)
    · exact ⟨s, b, .inl hs⟩
    · exact ⟨p, a, .inr ⟨rfl, rfl, rfl⟩⟩

/-- The states that are left after linking. -/
theorem exists_edge_link_from {n : Nfa} {p q r : Int} {a : Symbol} (hp : n.IsAllocated p) :
    (∃ b s, (n.link p a q).Edge r b s) ↔ (∃ b s, n.Edge r b s) ∨ r = p := by
  simp only [edge_link hp]
  constructor
  · rintro ⟨b, s, hs | ⟨rfl, -, -⟩⟩
    · exact .inl ⟨b, s, hs⟩
    · exact .inr rfl
  · rintro (⟨b, s, hs⟩ | rfl)
    · exact ⟨b, s, .inl hs⟩
    · exact ⟨a, q, .inr ⟨rfl, rfl, rfl⟩⟩

/-! ### What building steps keep -/

/-- What holds of every automaton that is built step by step. -/
structure WellFormed (n : Nfa) : Prop where
  /-- edges end at states -/
  isAllocated : ∀ {p a q}, n.Edge p a q → n.IsAllocated q
  hasIncoming_iff : ∀ q, n.hasIncoming q = true ↔ ∃ p a, n.Edge p a q
  hasOutgoing_iff : ∀ p, n.hasOutgoing p = true ↔ ∃ a q, n.Edge p a q
  /-- what is remembered for a state is what one silent edge or more lead to -/
  mem_remembered : ∀ {q s}, n.remembered[q]? = some s →
    ∀ r, r ∈ s ↔ Relation.TransGen n.Silent q r

namespace WellFormed

variable {n : Nfa}

theorem empty (alphabet : Alphabet) : (Nfa.empty alphabet).WellFormed where
  isAllocated h := absurd h (by simp [Edge, targets, node?, Nfa.empty])
  hasIncoming_iff q := by simp [hasIncoming, Edge, targets, node?, Nfa.empty]
  hasOutgoing_iff p := by simp [hasOutgoing, Edge, targets, node?, Nfa.empty]
  mem_remembered h := by simp [Nfa.empty] at h

/-- The start and the final state may be any. -/
theorem withEnds (h : n.WellFormed) (start finish : Int) :
    { n with start, finish : Nfa }.WellFormed :=
  ⟨h.isAllocated, h.hasIncoming_iff, h.hasOutgoing_iff, h.mem_remembered⟩

theorem newState (h : n.WellFormed) : n.newState.2.WellFormed where
  isAllocated he := by
    have := h.isAllocated (edge_newState.mp he)
    rw [IsAllocated] at this
    rw [isAllocated_newState]
    omega
  hasIncoming_iff q := by simp [h.hasIncoming_iff]
  hasOutgoing_iff p := by simp [h.hasOutgoing_iff]
  mem_remembered hs r := by
    have hsilent : n.newState.2.Silent = n.Silent := by
      funext p q
      exact propext edge_newState
    rw [hsilent]
    exact h.mem_remembered hs r

theorem link (h : n.WellFormed) {p q : Int} {a : Symbol} (hp : n.IsAllocated p)
    (hq : n.IsAllocated q) : (n.link p a q).WellFormed := by
  by_cases he : n.Edge p a q
  · rwa [link_eq_self he]
  · refine ⟨?_, ?_, ?_, ?_⟩
    · intro r b s hs
      rw [isAllocated_link]
      rcases (edge_link hp).mp hs with hs | ⟨-, -, rfl⟩
      · exact h.isAllocated hs
      · exact hq
    · intro r
      rw [hasIncoming_link hp hq he, Bool.or_eq_true, h.hasIncoming_iff, decide_eq_true_eq,
        exists_edge_link_to hp]
    · intro r
      rw [hasOutgoing_link hp hq he, Bool.or_eq_true, h.hasOutgoing_iff, decide_eq_true_eq,
        exists_edge_link_from hp]
    -- the new edge makes the automaton forget
    · intro r s hs
      rw [Nfa.link, if_neg (by simpa [Edge] using he)] at hs
      simp at hs

end WellFormed

/-- Every edge reads nothing or a symbol of the alphabet. -/
def LabelsKnown (n : Nfa) : Prop := ∀ {p a q}, n.Edge p a q → a = epsilon ∨ a ∈ n.alphabet

namespace LabelsKnown

variable {n : Nfa}

theorem empty (alphabet : Alphabet) : (Nfa.empty alphabet).LabelsKnown :=
  fun h => absurd h (by simp [Edge, targets, node?, Nfa.empty])

theorem newState (h : n.LabelsKnown) : n.newState.2.LabelsKnown :=
  fun he => h (edge_newState.mp he)

theorem link (h : n.LabelsKnown) {p : Int} {a : Symbol} (hp : n.IsAllocated p)
    (ha : a = epsilon ∨ a ∈ n.alphabet) (q : Int) : (n.link p a q).LabelsKnown := by
  intro r b s hs
  rw [alphabet_link]
  rcases (edge_link hp).mp hs with hs | ⟨-, rfl, -⟩
  · exact h hs
  · exact ha

end LabelsKnown

end RegexAutomata.Nfa
