/-
The edges of an automaton as lists.

The transition relation is listed state by state and symbol by symbol, each with all targets.
Whatever operations built the automaton, every edge is listed, and once.

* `mem_transitions_iff_node` — what is stored for a state is listed under its number;
* `Tidy.mem_transitions`, `Tidy.nodup_keys` — a state and a symbol are listed together at most once,
  with the targets that are found under them;
* `Tidy.mem_edges`, `Tidy.nodup_edges` — so the edges are listed one by one;
* `Tidy.perm_edges_link`, `edges_newState` — what linking and new states do to this list;
* `Tidy.ncard_edge` — counting the list counts edges.
-/
import RegexAutomata.Proofs.Nfa.SameEdges
import Mathlib.Data.Set.Card

namespace RegexAutomata.Nfa

variable {n : Nfa} {p q : Int} {a : Symbol} {ts : List Int}

/-- The edges one by one, each with source, symbol and target. -/
def edges (n : Nfa) : List (Int × Symbol × Int) :=
  n.transitions.flatMap fun (p, a, targets) => targets.map fun q => (p, a, q)

/-- What is listed of a state is what is stored for it. -/
theorem mem_transitions_iff_node :
    (p, a, ts) ∈ n.transitions ↔ ∃ node, n.node? p = some node ∧ (a, ts) ∈ node.edges := by
  rw [transitions, List.mem_flatMap]
  constructor
  · rintro ⟨⟨node, i⟩, hnode, hmem⟩
    obtain ⟨⟨b, us⟩, hedges, heq⟩ := List.mem_map.mp hmem
    cases heq
    rw [List.mem_zipIdx_iff_getElem?, Array.getElem?_toList] at hnode
    exact ⟨node, by simpa [node?] using hnode, hedges⟩
  · rintro ⟨node, hnode, hedges⟩
    have hp : 0 ≤ p := by
      by_contra hp
      rw [node?, if_neg hp] at hnode
      cases hnode
    rw [node?, if_pos hp] at hnode
    refine ⟨(node, p.toNat), ?_, List.mem_map.mpr ⟨(a, ts), hedges, ?_⟩⟩
    · rwa [List.mem_zipIdx_iff_getElem?, Array.getElem?_toList]
    · rw [Int.toNat_of_nonneg hp]

namespace Tidy

theorem mem_transitions (h : n.Tidy) :
    (p, a, ts) ∈ n.transitions ↔ n.targets p a ≠ [] ∧ n.targets p a = ts := by
  rw [mem_transitions_iff_node, targets]
  cases hnode : n.node? p with
  | none => simp
  | some node => simp [(h p node hnode).mem_iff]

/-- Nothing is listed under the same state and symbol twice. -/
theorem nodup_keys (h : n.Tidy) : (n.transitions.map fun t => (t.1, t.2.1)).Nodup := by
  rw [transitions, List.map_flatMap, List.nodup_flatMap]
  constructor
  · rintro ⟨node, i⟩ hnode
    rw [List.mem_zipIdx_iff_getElem?, Array.getElem?_toList] at hnode
    have hsymbols := (h i node (by simpa [node?] using hnode)).symbols
    rw [List.map_map]
    refine List.Nodup.of_map Prod.snd ?_
    rw [List.map_map]
    exact hsymbols
  -- what is stored for different states is listed under different numbers
  · have hids : ((n.nodes.toList.zipIdx).map Prod.snd).Pairwise (· ≠ ·) := by
      rw [List.zipIdx_map_snd]
      exact List.nodup_range'
    refine (List.pairwise_map.mp hids).imp ?_
    intro s t hne
    rw [Function.onFun, List.disjoint_left]
    intro key hs ht
    obtain ⟨x, hx, rfl⟩ := List.mem_map.mp hs
    obtain ⟨y, hy, heq⟩ := List.mem_map.mp ht
    obtain ⟨e, -, rfl⟩ := List.mem_map.mp hx
    obtain ⟨f, -, rfl⟩ := List.mem_map.mp hy
    exact hne (Int.natCast_inj.mp (Prod.mk.inj heq).1).symm

theorem mem_edges (h : n.Tidy) : (p, a, q) ∈ n.edges ↔ n.Edge p a q := by
  rw [edges, List.mem_flatMap, Edge]
  constructor
  · rintro ⟨⟨r, b, ts⟩, hmem, hq⟩
    obtain ⟨s, hs, heq⟩ := List.mem_map.mp hq
    cases heq
    rwa [(h.mem_transitions.mp hmem).2]
  · intro hq
    refine ⟨(p, a, n.targets p a), h.mem_transitions.mpr ⟨List.ne_nil_of_mem hq, rfl⟩, ?_⟩
    exact List.mem_map.mpr ⟨q, hq, rfl⟩

/-- No edge is listed twice. -/
theorem nodup_edges (h : n.Tidy) : n.edges.Nodup := by
  rw [edges, List.nodup_flatMap]
  constructor
  · rintro ⟨p, a, ts⟩ hmem
    obtain ⟨node, hnode, hedges⟩ := mem_transitions_iff_node.mp hmem
    refine List.Nodup.map ?_ ((h p node hnode).targets _ hedges).2
    intro q r heq
    exact (Prod.mk.inj (Prod.mk.inj heq).2).2
  · refine (List.pairwise_map.mp h.nodup_keys).imp ?_
    intro s t hne
    rw [Function.onFun, List.disjoint_left]
    intro e hs ht
    obtain ⟨q, -, rfl⟩ := List.mem_map.mp hs
    obtain ⟨r, -, heq⟩ := List.mem_map.mp ht
    refine hne (Prod.ext ?_ ?_)
    · exact (Prod.mk.inj heq).1.symm
    · exact (Prod.mk.inj (Prod.mk.inj heq).2).1.symm

/-- A new edge is listed besides the others. -/
theorem perm_edges_link (h : n.Tidy) (hp : n.IsAllocated p) (hq : n.IsAllocated q)
    (he : ¬n.Edge p a q) : (n.link p a q).edges.Perm ((p, a, q) :: n.edges) := by
  have hnodup : ((p, a, q) :: n.edges).Nodup :=
    List.nodup_cons.mpr ⟨h.mem_edges.not.mpr he, h.nodup_edges⟩
  rw [List.perm_ext_iff_of_nodup (h.link hp hq a).nodup_edges hnodup]
  rintro ⟨r, b, s⟩
  rw [(h.link hp hq a).mem_edges, edge_link hp, List.mem_cons, h.mem_edges, or_comm]
  simp only [Prod.mk.injEq]

/-- The edges with a property are as many as the list says. -/
theorem ncard_edge (h : n.Tidy) (P : Symbol → Bool) :
    {e : Int × Symbol × Int | n.Edge e.1 e.2.1 e.2.2 ∧ P e.2.1 = true}.ncard =
      n.edges.countP fun e => P e.2.1 := by
  have hset : {e : Int × Symbol × Int | n.Edge e.1 e.2.1 e.2.2 ∧ P e.2.1 = true} =
      ((n.edges.filter fun e => P e.2.1).toFinset : Set (Int × Symbol × Int)) := by
    ext ⟨p, a, q⟩
    simp [h.mem_edges]
  rw [hset, Set.ncard_coe_finset, List.toFinset_card_of_nodup (h.nodup_edges.filter _),
    List.countP_eq_length_filter]

end Tidy

/-- A new state has no edges. -/
theorem edges_newState (n : Nfa) : n.newState.2.edges = n.edges := by
  have htransitions : n.newState.2.transitions = n.transitions := by
    simp [transitions, newState, List.zipIdx_append]
  rw [edges, edges, htransitions]

end RegexAutomata.Nfa
