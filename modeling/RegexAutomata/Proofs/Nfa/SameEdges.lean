/-
Automata with the same edges, added in different orders.

A state keeps its edges in the order in which they were added. Nothing that is written of an
automaton shows this order, since symbols, targets and edges are sorted before; and no run depends
on it.

* `Edges.Tidy`, `tidy_after` — every symbol is kept once, with each of its targets once;
* `Edges.Tidy.reordered` — so the edges of a state are determined up to their order (`Reordered`);
* `SameEdges.toDictionary_eq`, `SameEdges.drawing_eq` — automata with the same edges are written in
  the same way;
* `SameEdges.startStates_eq`, `SameEdges.step_eq`, `SameEdges.accepts_eq` — and they run in the same
  way.
-/
import RegexAutomata.Proofs.Nfa.Operation
import Mathlib.Data.List.Forall2
import Mathlib.Data.List.Nodup
import Mathlib.Data.List.Perm.Basic

namespace RegexAutomata

/-! ### Sorting -/

section Sorting

variable {α : Type} {l l' : List α}

/-- Lists with the same elements are sorted to the same list, if only equal elements tie. -/
theorem mergeSort_eq_of_perm {le : α → α → Bool}
    (htrans : ∀ a b c, le a b = true → le b c = true → le a c = true)
    (htotal : ∀ a b, (le a b || le b a) = true)
    (hantisymm : ∀ a ∈ l, ∀ b ∈ l, le a b = true → le b a = true → a = b) (h : l.Perm l') :
    l.mergeSort le = l'.mergeSort le := by
  have hl := l.mergeSort_perm le
  have hl' := l'.mergeSort_perm le
  refine List.Perm.eq_of_pairwise ?_ (List.pairwise_mergeSort htrans htotal l)
    (List.pairwise_mergeSort htrans htotal l') ((hl.trans h).trans hl'.symm)
  intro a b ha hb
  exact hantisymm a (hl.mem_iff.mp ha) b (h.mem_iff.mpr (hl'.mem_iff.mp hb))

theorem isLE_or_isLE (cmp : α → α → Ordering) [Std.TransCmp cmp] (a b : α) :
    ((cmp a b).isLE || (cmp b a).isLE) = true := by
  have hswap : cmp b a = (cmp a b).swap := Std.OrientedCmp.eq_swap
  rw [hswap]
  cases cmp a b <;> rfl

theorem mergeSort_isLE_eq_of_perm (cmp : α → α → Ordering) [Std.TransCmp cmp]
    (heq : ∀ a ∈ l, ∀ b ∈ l, cmp a b = .eq → a = b) (h : l.Perm l') :
    (l.mergeSort fun a b => (cmp a b).isLE) = l'.mergeSort fun a b => (cmp a b).isLE := by
  refine mergeSort_eq_of_perm (fun _ _ _ => Std.TransCmp.isLE_trans) (isLE_or_isLE cmp) ?_ h
  intro a ha b hb hab hba
  exact heq a ha b hb (Std.OrientedCmp.isLE_antisymm hab hba)

theorem mergeSort_int_eq_of_perm {l l' : List Int} (h : l.Perm l') :
    (l.mergeSort fun p q => p ≤ q) = l'.mergeSort fun p q => p ≤ q := by
  refine mergeSort_eq_of_perm ?_ ?_ ?_ h
  · intro p q r
    simp only [decide_eq_true_eq]
    omega
  · intro p q
    simp only [Bool.or_eq_true, decide_eq_true_eq]
    omega
  · intro p _ q _
    simp only [decide_eq_true_eq]
    omega

/-- Sorting lists without repetitions gives lists in strictly ascending order. -/
theorem pairwise_mergeSort_lt (cmp : α → α → Ordering) [Std.TransCmp cmp]
    (heq : ∀ a b, cmp a b = .eq → a = b) (h : l.Nodup) :
    (l.mergeSort fun a b => (cmp a b).isLE).Pairwise fun a b => cmp a b = .lt := by
  have hsorted : (l.mergeSort fun a b => (cmp a b).isLE).Pairwise fun a b => (cmp a b).isLE :=
    List.pairwise_mergeSort (fun _ _ _ => Std.TransCmp.isLE_trans) (isLE_or_isLE cmp) l
  have hnodup := (l.mergeSort_perm fun a b => (cmp a b).isLE).nodup_iff.mpr h
  refine hsorted.imp₂ ?_ hnodup
  intro a b hle hne
  cases hcmp : cmp a b with
  | lt => rfl
  | eq => exact absurd (heq a b hcmp) hne
  | gt =>
    rw [hcmp] at hle
    cases hle

end Sorting

namespace Dot.Edge

/-- How edges of a drawing are compared when they are sorted. -/
def cmp : Edge → Edge → Ordering :=
  compareLex (compareOn source) (compareLex (compareOn target) (compareOn label))

instance : Std.TransCmp cmp :=
  inferInstanceAs
    (Std.TransCmp (compareLex (compareOn source) (compareLex (compareOn target) (compareOn label))))

theorem eq_of_cmp {e f : Edge} (h : cmp e f = .eq) : e = f := by
  obtain ⟨p, q, a⟩ := e
  obtain ⟨p', q', a'⟩ := f
  simp only [cmp, compareLex_eq_eq, compareOn, Std.LawfulEqCmp.compare_eq_iff_eq] at h
  obtain ⟨rfl, rfl, rfl⟩ := h
  rfl

theorem mergeSort_eq_of_perm {es fs : List Edge} (h : es.Perm fs) :
    es.mergeSort le = fs.mergeSort le :=
  mergeSort_isLE_eq_of_perm cmp (fun _ _ _ _ => eq_of_cmp) h

end Dot.Edge

namespace Nfa

/-! ### The edges of one state -/

namespace Edges

/-- Each symbol stands once, with one target or more and each of them once. -/
structure Tidy (es : Edges) : Prop where
  symbols : (es.map Prod.fst).Nodup
  targets : ∀ e ∈ es, e.2 ≠ [] ∧ e.2.Nodup

/-- The edges with the targets of each symbol in ascending order. -/
def sorted (es : Edges) : Edges := es.map fun e => (e.1, e.2.mergeSort fun p q => p ≤ q)

variable {es es' : Edges} {a : Symbol} {ts : List Int}

/-- What stands among tidy edges is what is found under the symbol. -/
theorem Tidy.mem_iff (h : es.Tidy) : (a, ts) ∈ es ↔ es.targets a ≠ [] ∧ es.targets a = ts := by
  rw [← Keyed.lookup_eq_some_iff_mem h.symbols, Edges.targets]
  cases hlookup : es.lookup a with
  | none => simp
  | some us =>
    have hne : us ≠ [] := (h.targets _ (Keyed.mem_of_lookup hlookup)).1
    simp [hne]

theorem Tidy.nodup_targets (h : es.Tidy) (a : Symbol) : (es.targets a).Nodup := by
  by_cases hne : es.targets a = []
  · rw [hne]
    exact .nil
  · exact (h.targets _ (h.mem_iff.mpr ⟨hne, rfl⟩)).2

/-- A new target keeps edges tidy. -/
theorem Tidy.add {q : Int} (h : es.Tidy) (hq : q ∉ es.targets a) : (es.add a q).Tidy := by
  refine ⟨Keyed.nodup_map_put h.symbols, fun e he => ?_⟩
  rcases Keyed.eq_or_mem_of_mem_put he with rfl | he
  · refine ⟨by simp, ?_⟩
    rw [List.nodup_append_comm, List.singleton_append, List.nodup_cons]
    exact ⟨hq, h.nodup_targets a⟩
  · exact h.targets e he

theorem Tidy.mem_sorted (h : es.Tidy) : (a, ts) ∈ es.sorted ↔
    es.targets a ≠ [] ∧ ((es.targets a).mergeSort fun p q => p ≤ q) = ts := by
  rw [sorted, List.mem_map]
  constructor
  · rintro ⟨⟨c, us⟩, hmem, hsame⟩
    obtain ⟨rfl, rfl⟩ := Prod.mk.inj hsame
    obtain ⟨hne, htargets⟩ := h.mem_iff.mp hmem
    exact ⟨hne, by rw [htargets]⟩
  · rintro ⟨hne, rfl⟩
    exact ⟨(a, es.targets a), h.mem_iff.mpr ⟨hne, rfl⟩, rfl⟩

/-- Edges that differ in order only. -/
structure Reordered (es es' : Edges) : Prop where
  tidy : es.Tidy
  perm : es.sorted.Perm es'.sorted

/-- Tidy edges with the same targets under each symbol differ in order only. -/
theorem Tidy.reordered (h : es.Tidy) (h' : es'.Tidy)
    (hsame : ∀ a q, q ∈ es.targets a ↔ q ∈ es'.targets a) : es.Reordered es' := by
  refine ⟨h, ?_⟩
  have hperm (a : Symbol) : (es.targets a).Perm (es'.targets a) :=
    (List.perm_ext_iff_of_nodup (h.nodup_targets a) (h'.nodup_targets a)).mpr (hsame a)
  have hnodup {fs : Edges} (hfs : fs.Tidy) : fs.sorted.Nodup := by
    refine List.Nodup.of_map Prod.fst ?_
    rw [sorted, List.map_map]
    exact hfs.symbols
  rw [List.perm_ext_iff_of_nodup (hnodup h) (hnodup h')]
  rintro ⟨a, ts⟩
  rw [h.mem_sorted, h'.mem_sorted, mergeSort_int_eq_of_perm (hperm a), ne_eq, ne_eq,
    ← List.length_eq_zero_iff, ← List.length_eq_zero_iff, (hperm a).length_eq]

/-! ### How the edges of a state are written -/

theorem toRows_eq (es : Edges) : es.toRows =
    (es.sorted.mergeSort fun e f => (compare e.1 f.1).isLE).map fun e =>
      (e.1, e.2.map Text.ofInt) := by
  have hsort : (es.mergeSort fun e f => (compare e.1 f.1).isLE).map
        (fun e => (e.1, e.2.mergeSort fun p q => p ≤ q)) =
      es.sorted.mergeSort fun e f => (compare e.1 f.1).isLE :=
    List.map_mergeSort fun _ _ _ _ => rfl
  rw [← hsort, List.map_map]
  rfl

theorem Reordered.toRows_eq (h : es.Reordered es') : es.toRows = es'.toRows := by
  rw [Edges.toRows_eq, Edges.toRows_eq]
  congr 1
  refine mergeSort_isLE_eq_of_perm (compareOn Prod.fst) ?_ h.perm
  rintro ⟨a, ts⟩ he ⟨c, us⟩ hf heq
  -- a symbol stands only once
  obtain rfl : a = c := Std.LawfulEqOrd.eq_of_compare heq
  rw [← (h.tidy.mem_sorted.mp he).2, ← (h.tidy.mem_sorted.mp hf).2]

theorem Reordered.isEmpty_eq (h : es.Reordered es') : es.isEmpty = es'.isEmpty := by
  have hlength := h.perm.length_eq
  rw [sorted, sorted, List.length_map, List.length_map] at hlength
  rw [Bool.eq_iff_iff, List.isEmpty_iff_length_eq_zero, List.isEmpty_iff_length_eq_zero, hlength]

/-- The edges of a state as they are drawn. -/
def drawn (q : Int) (es : Edges) : List Dot.Edge :=
  es.flatMap fun e => e.2.map fun r => Dot.Edge.mk q r (Dot.edgeLabel e.1)

theorem perm_drawn_sorted (q : Int) (es : Edges) : (es.drawn q).Perm (es.sorted.drawn q) := by
  rw [drawn, drawn, sorted, List.flatMap_map]
  refine List.Perm.flatMap_left es ?_
  intro e _
  exact (List.mergeSort_perm e.2 _).symm.map _

theorem Reordered.perm_drawn (h : es.Reordered es') (q : Int) :
    (es.drawn q).Perm (es'.drawn q) :=
  ((perm_drawn_sorted q es).trans (h.perm.flatMap_right _)).trans (perm_drawn_sorted q es').symm

end Edges

/-! ### Tidy automata -/

/-- The edges of every state are tidy. -/
def Tidy (n : Nfa) : Prop := ∀ q node, n.node? q = some node → node.edges.Tidy

namespace Tidy

variable {n m : Nfa}

theorem empty (alphabet : Alphabet) : (Nfa.empty alphabet).Tidy := by
  intro q node hnode
  simp [node?, Nfa.empty] at hnode

theorem newState (h : n.Tidy) : n.newState.2.Tidy := by
  intro q node hnode
  rw [node?_newState] at hnode
  split at hnode
  · obtain rfl := Option.some_inj.mp hnode
    exact ⟨List.nodup_nil, fun e he => absurd he List.not_mem_nil⟩
  · exact h q node hnode

theorem link (h : n.Tidy) {p q : Int} (hp : n.IsAllocated p) (hq : n.IsAllocated q) (a : Symbol) :
    (n.link p a q).Tidy := by
  by_cases he : n.Edge p a q
  · rwa [link_eq_self he]
  · intro r node hnode
    rw [node?_link hp.1 hq.1 he, Option.map_eq_some_iff] at hnode
    obtain ⟨old, hold, rfl⟩ := hnode
    by_cases hr : r = p
    · subst hr
      simp only [↓reduceIte]
      refine (h r old hold).add ?_
      rwa [Edge, targets, hold] at he
    · simp only [if_neg hr]
      exact h r old hold

theorem grows {labels : Symbol → Prop} {base : Nat} (hm : Grows labels base n m) (h : n.Tidy) :
    m.Tidy := by
  induction hm with
  | refl => exact h
  | newState _ ih => exact ih.newState
  | link _ hp hq _ _ _ ih => exact ih.link hp hq _

theorem perform (h : n.Tidy) (op : Operation) : (op.perform n).2.Tidy := by
  cases op with
  | change c =>
    obtain ⟨m, hm, start, finish, heq⟩ := c.grows n
    show (c.perform n).2.Tidy
    rw [heq]
    have hm : m.Tidy := h.grows hm
    exact hm
  | ask q =>
    obtain ⟨r, hr⟩ := n.exists_rememberAll_eq (q.needs n)
    show (n.rememberAll (q.needs n)).Tidy
    rw [hr]
    exact h

theorem after (h : n.Tidy) (ops : List Operation) : (Operation.after n ops).Tidy := by
  induction ops generalizing n with
  | nil => exact h
  | cons op rest ih => exact ih (h.perform op)

end Tidy

theorem tidy_after (alphabet : Alphabet) (ops : List Operation) :
    (Operation.after (.empty alphabet) ops).Tidy := (Tidy.empty alphabet).after ops

/-! ### The same edges -/

/-- Two automata have the same states and edges, and the same start and final state. -/
structure SameEdges (n m : Nfa) : Prop where
  alphabet_eq : n.alphabet = m.alphabet
  size_eq : n.size = m.size
  start_eq : n.start = m.start
  finish_eq : n.finish = m.finish
  edge_iff : ∀ p a q, n.Edge p a q ↔ m.Edge p a q

namespace SameEdges

variable {n m : Nfa}

/-- What is stored for each state differs in order only. -/
theorem forall₂_nodes (h : n.SameEdges m) (hn : n.Tidy) (hm : m.Tidy) :
    List.Forall₂ (fun node node' => node.edges.Reordered node'.edges)
      n.nodes.toList m.nodes.toList := by
  have hsize : n.nodes.size = m.nodes.size := h.size_eq
  rw [List.forall₂_iff_get]
  refine ⟨by simpa using hsize, ?_⟩
  intro i hi hi'
  rw [Array.length_toList] at hi hi'
  have hnode : n.node? i = some n.nodes[i] := by simp [node?, hi]
  have hnode' : m.node? i = some m.nodes[i] := by simp [node?, hi']
  refine (hn i _ hnode).reordered (hm i _ hnode') ?_
  intro a q
  have hedge := h.edge_iff i a q
  rwa [Edge, Edge, targets, targets, hnode, hnode'] at hedge

/-- The entries of the states in the dictionary form. -/
theorem entries_eq {l l' : List Node}
    (h : List.Forall₂ (fun node node' => node.edges.Reordered node'.edges) l l') (k : Nat) :
    (((l.zipIdx k).filter fun (node, _) => !node.edges.isEmpty).map fun (node, q) =>
        (Text.ofNat q, node.edges.toRows)) =
      ((l'.zipIdx k).filter fun (node, _) => !node.edges.isEmpty).map fun (node, q) =>
        (Text.ofNat q, node.edges.toRows) := by
  induction h generalizing k with
  | nil => rfl
  | cons hnode _ ih =>
    simp only [List.zipIdx_cons, List.filter_cons, hnode.isEmpty_eq]
    split
    · simp only [List.map_cons, hnode.toRows_eq, ih]
    · exact ih (k + 1)

theorem toDictionary_eq (h : n.SameEdges m) (hn : n.Tidy) (hm : m.Tidy) :
    n.toDictionary = m.toDictionary := by
  rw [toDictionary, toDictionary, entries_eq (h.forall₂_nodes hn hm), h.alphabet_eq, h.size_eq,
    h.start_eq, h.finish_eq]

theorem perm_drawn {l l' : List Node}
    (h : List.Forall₂ (fun node node' => node.edges.Reordered node'.edges) l l') (k : Nat) :
    ((l.zipIdx k).flatMap fun (node, q) => node.edges.drawn q).Perm
      ((l'.zipIdx k).flatMap fun (node, q) => node.edges.drawn q) := by
  induction h generalizing k with
  | nil => exact .nil
  | cons hnode _ ih =>
    simp only [List.zipIdx_cons, List.flatMap_cons]
    exact (hnode.perm_drawn _).append (ih (k + 1))

/-- The edges of a drawing before they are sorted, state by state. -/
theorem flatMap_transitions (n : Nfa) :
    (n.transitions.flatMap fun (p, a, targets) =>
        targets.map fun q => Dot.Edge.mk p q (Dot.edgeLabel a)) =
      n.nodes.toList.zipIdx.flatMap fun (node, q) => node.edges.drawn q := by
  rw [transitions, List.flatMap_assoc]
  refine List.flatMap_congr ?_
  rintro ⟨node, q⟩ _
  rw [List.flatMap_map]
  rfl

theorem drawing_eq (h : n.SameEdges m) (hn : n.Tidy) (hm : m.Tidy) : n.drawing = m.drawing := by
  have hperm := perm_drawn (h.forall₂_nodes hn hm) 0
  rw [← flatMap_transitions, ← flatMap_transitions] at hperm
  rw [drawing, drawing, h.start_eq, h.finish_eq, h.size_eq]
  congr 1
  exact Dot.Edge.mergeSort_eq_of_perm hperm

/-! ### Runs -/

theorem silent_eq (h : n.SameEdges m) : n.Silent = m.Silent := by
  funext p q
  exact propext (h.edge_iff p epsilon q)

theorem startStates_eq (h : n.SameEdges m) (hn : n.WellFormed) (hm : m.WellFormed) :
    n.startStates = m.startStates := by
  refine SortedSet.ext fun q => ?_
  rw [mem_startStates hn, mem_startStates hm, h.silent_eq, h.start_eq]

theorem step_eq (h : n.SameEdges m) (hn : n.WellFormed) (hm : m.WellFormed) :
    n.step = m.step := by
  funext s a
  refine SortedSet.ext fun q => ?_
  simp only [mem_step hn, mem_step hm, h.silent_eq, h.edge_iff]

theorem accepts_eq (h : n.SameEdges m) (hn : n.WellFormed) (hm : m.WellFormed) (w : Text) :
    n.accepts w = m.accepts w := by
  rw [Bool.eq_iff_iff, accepts_iff_mem_statesAfter, accepts_iff_mem_statesAfter, statesAfter,
    statesAfter, stepAll, stepAll, h.step_eq hn hm, h.startStates_eq hn hm, h.finish_eq]

end SameEdges

end Nfa

end RegexAutomata
