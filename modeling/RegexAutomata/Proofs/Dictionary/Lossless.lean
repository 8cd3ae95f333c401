/-
The dictionary form keeps all of an automaton.

Both kinds of automata are written edge by edge, although an entry collects the edges of a state and
a row those with the same symbol. So one reader gets back either kind (`Dictionary.decode`).

* `Nfa.edges_toDictionary`, `Nfa.Tidy.decode_toDictionary` — nondeterministic automata;
* `Dfa.edgesOf_groupMoves`, `Dfa.decode_toDictionary` — deterministic automata;
* `Nfa.Tidy.regular_toDictionary`, `Dfa.regular_toDictionary` — names and symbols stand once, and
  targets in strictly ascending order of their numbers.
-/
import RegexAutomata.Proofs.Dfa.Shortlex
import RegexAutomata.Proofs.Dictionary.Decode
import RegexAutomata.Proofs.Nfa.SameEdges

namespace RegexAutomata

open Dictionary (nameEdge edgesOf Regular)

/-! ### Nondeterministic automata -/

namespace Nfa

variable {n : Nfa} {p q : Int} {a : Symbol}

/-- The edges of a state as they are written. -/
def Edges.written (q : Int) (es : Edges) : List (Int × Symbol × Int) :=
  (es.sorted.mergeSort fun e f => (compare e.1 f.1).isLE).flatMap fun e =>
    e.2.map fun r => (q, e.1, r)

/-- The edges in the order in which the dictionary form has them. -/
def writtenEdges (n : Nfa) : List (Int × Symbol × Int) :=
  (n.nodes.toList.zipIdx.filter fun (node, _) => !node.edges.isEmpty).flatMap fun (node, q) =>
    node.edges.written q

theorem edges_toDictionary (n : Nfa) :
    edgesOf n.toDictionary.transitions = n.writtenEdges.map nameEdge := by
  have hrows (q : Int) (es : Edges) :
      (es.toRows.flatMap fun row => row.2.map fun r => (Text.ofInt q, row.1, r)) =
        (es.written q).map nameEdge := by
    rw [Edges.toRows_eq, Edges.written, List.flatMap_map, List.map_flatMap]
    refine List.flatMap_congr ?_
    rintro ⟨a, ts⟩ _
    show (ts.map Text.ofInt).map (fun r => (Text.ofInt q, a, r)) =
      (ts.map fun r => (q, a, r)).map nameEdge
    rw [List.map_map, List.map_map]
    rfl
  rw [edgesOf, toDictionary, writtenEdges, List.flatMap_map, List.map_flatMap]
  refine List.flatMap_congr ?_
  rintro ⟨node, q⟩ _
  exact hrows q node.edges

theorem Edges.Tidy.mem_written {es : Edges} (h : es.Tidy) {r : Int} :
    (r, a, q) ∈ es.written p ↔ r = p ∧ q ∈ es.targets a := by
  rw [written, List.mem_flatMap]
  constructor
  · rintro ⟨⟨c, ts⟩, hrow, hq⟩
    obtain ⟨s, hs, heq⟩ := List.mem_map.mp hq
    obtain ⟨rfl, hrest⟩ := Prod.mk.inj heq
    obtain ⟨rfl, rfl⟩ := Prod.mk.inj hrest
    obtain ⟨-, hts⟩ := h.mem_sorted.mp (List.mem_mergeSort.mp hrow)
    rw [← hts] at hs
    exact ⟨rfl, List.mem_mergeSort.mp hs⟩
  · rintro ⟨rfl, hq⟩
    refine ⟨(a, (es.targets a).mergeSort fun p q => p ≤ q), ?_, ?_⟩
    · exact List.mem_mergeSort.mpr (h.mem_sorted.mpr ⟨List.ne_nil_of_mem hq, rfl⟩)
    · exact List.mem_map.mpr ⟨q, List.mem_mergeSort.mpr hq, rfl⟩

/-- The states are listed with what is stored for them. -/
theorem mem_zipIdx_iff_node {node : Node} {i : Nat} :
    (node, i) ∈ n.nodes.toList.zipIdx ↔ n.node? i = some node := by
  rw [List.mem_zipIdx_iff_getElem?, Array.getElem?_toList]
  simp [node?]

/-- Every edge is written. -/
theorem Tidy.mem_writtenEdges (h : n.Tidy) : (p, a, q) ∈ n.writtenEdges ↔ n.Edge p a q := by
  rw [writtenEdges, List.mem_flatMap]
  constructor
  · rintro ⟨⟨node, i⟩, hmem, hwritten⟩
    have hnode := mem_zipIdx_iff_node.mp (List.mem_filter.mp hmem).1
    obtain ⟨rfl, hq⟩ := (h i node hnode).mem_written.mp hwritten
    rwa [Edge, targets, hnode]
  · intro hedge
    obtain ⟨i, rfl⟩ := Int.eq_ofNat_of_zero_le hedge.isAllocated.1
    rw [Edge, targets] at hedge
    cases hnode : n.node? i with
    | none =>
      rw [hnode] at hedge
      cases hedge
    | some node =>
      have hedge : q ∈ node.edges.targets a := by rwa [hnode] at hedge
      have hne : node.edges ≠ [] := by
        intro hnil
        rw [hnil] at hedge
        cases hedge
      refine ⟨(node, i), List.mem_filter.mpr ⟨mem_zipIdx_iff_node.mpr hnode, ?_⟩, ?_⟩
      · simpa using hne
      · exact (h i node hnode).mem_written.mpr ⟨rfl, hedge⟩

/-- A graph with the states, the alphabet, the start, the final state and the edges of an
automaton. -/
structure IsGraph (n : Nfa) (g : FiniteAutomaton) : Prop where
  states_eq : g.states = (List.range n.size).map fun (q : Nat) => (q : Int)
  alphabet_eq : g.alphabet = n.alphabet
  start_eq : g.start = n.start
  mem_accepting : ∀ q, q ∈ g.accepting ↔ q = n.finish
  mem_edges : ∀ p a q, (p, a, q) ∈ g.edges ↔ n.Edge p a q

/-- An automaton is read back from its dictionary form. -/
theorem Tidy.decode_toDictionary (h : n.Tidy) :
    ∃ g, n.toDictionary.decode = some g ∧ n.IsGraph g := by
  have hstates : n.toDictionary.states =
      ((List.range n.size).map fun (q : Nat) => (q : Int)).map .ofInt := by
    rw [List.map_map]
    rfl
  have haccepting : n.toDictionary.accepting = [n.finish].map .ofInt := rfl
  refine ⟨_, Dictionary.decode_eq hstates rfl haccepting n.edges_toDictionary, ?_⟩
  exact {
    states_eq := rfl
    alphabet_eq := SortedSet.ext fun a => SortedSet.mem_ofList
    start_eq := rfl
    mem_accepting := fun q => SortedSet.mem_ofList.trans List.mem_singleton
    mem_edges := fun p a q => h.mem_writtenEdges }

theorem mergeSort_ne_nil {α : Type} {l : List α} {le : α → α → Bool} (h : l ≠ []) :
    l.mergeSort le ≠ [] := by
  intro hnil
  have hperm := l.mergeSort_perm le
  rw [hnil] at hperm
  exact h hperm.symm.eq_nil

/-- Numbers without repetitions are sorted in strictly ascending order. -/
theorem pairwise_lt_mergeSort {l : List Int} (h : l.Nodup) :
    (l.mergeSort fun p q => p ≤ q).Pairwise (· < ·) := by
  have hle : (fun p q : Int => decide (p ≤ q)) = fun p q => (compare p q).isLE := by
    funext p q
    rw [Bool.eq_iff_iff, decide_eq_true_eq, Std.isLE_compare]
  rw [hle]
  exact (pairwise_mergeSort_lt compare (fun _ _ => compare_eq_iff_eq.mp) h).imp
    compare_lt_iff_lt.mp

namespace Edges

variable {es : Edges}

theorem nodup_toRows (h : es.Tidy) : (es.toRows.map Prod.fst).Nodup := by
  have hperm := (es.sorted.mergeSort_perm fun e f => (compare e.1 f.1).isLE).map Prod.fst
  have hfst : es.sorted.map Prod.fst = es.map Prod.fst := by
    rw [sorted, List.map_map]
    rfl
  rw [toRows_eq, List.map_map]
  show (List.map Prod.fst _).Nodup
  rw [hperm.nodup_iff, hfst]
  exact h.symbols

theorem exists_targets_toRows (h : es.Tidy) {row : Symbol × List Text} (hrow : row ∈ es.toRows) :
    ∃ ts : List Int, row.2 = ts.map .ofInt ∧ ts ≠ [] ∧ ts.Pairwise (· < ·) := by
  rw [toRows_eq] at hrow
  obtain ⟨⟨a, ts⟩, hmem, rfl⟩ := List.mem_map.mp hrow
  obtain ⟨hne, rfl⟩ := h.mem_sorted.mp (List.mem_mergeSort.mp hmem)
  exact ⟨_, rfl, mergeSort_ne_nil hne, pairwise_lt_mergeSort (h.nodup_targets a)⟩

end Edges

theorem Tidy.regular_toDictionary (h : n.Tidy) : Regular n.toDictionary := by
  have hentry {entry : Text × List (Symbol × List Text)}
      (hmem : entry ∈ n.toDictionary.transitions) :
      ∃ node : Node, node.edges.Tidy ∧ node.edges ≠ [] ∧ entry.2 = node.edges.toRows := by
    obtain ⟨⟨node, i⟩, hnode, rfl⟩ := List.mem_map.mp hmem
    obtain ⟨hnode, hne⟩ := List.mem_filter.mp hnode
    exact ⟨node, h i node (mem_zipIdx_iff_node.mp hnode), by simpa using hne, rfl⟩
  refine ⟨?_, fun entry hmem => ?_, fun entry hmem row hrow => ?_⟩
  -- different states have different numbers, and so different names
  · have hids : (n.nodes.toList.zipIdx.map Prod.snd).Nodup := by
      rw [List.zipIdx_map_snd]
      exact List.nodup_range'
    have hnames := (hids.sublist (List.Sublist.map Prod.snd
      (List.filter_sublist (p := fun e => !e.1.edges.isEmpty)))).map Text.ofNat_injective
    rw [List.map_map] at hnames
    rw [toDictionary, List.map_map]
    exact hnames
  · obtain ⟨node, htidy, hne, hrows⟩ := hentry hmem
    rw [hrows]
    exact ⟨mt List.map_eq_nil_iff.mp (mergeSort_ne_nil hne), Edges.nodup_toRows htidy⟩
  · obtain ⟨node, htidy, -, hrows⟩ := hentry hmem
    rw [hrows] at hrow
    exact Edges.exists_targets_toRows htidy hrow

end Nfa

/-! ### Deterministic automata -/

namespace Dfa

variable {d : Dfa} {m : Move} {ms : List Move}

/-- A move as an edge. -/
def Move.edge (m : Move) : Int × Symbol × Int := (m.source, m.symbol, m.target)

/-- The row of a move that stands alone. -/
def Move.row (m : Move) : Symbol × List Text := (m.symbol, [Text.ofInt m.target])

/-- A move comes into the first entry, if that is of the same state, or gets an entry. -/
theorem groupMoves_cons (m : Move) (ms : List Move) :
    (∃ rows entries, groupMoves ms = (Text.ofInt m.source, rows) :: entries ∧
      groupMoves (m :: ms) = (Text.ofInt m.source, m.row :: rows) :: entries) ∨
    ((groupMoves ms).head?.map Prod.fst ≠ some (Text.ofInt m.source) ∧
      groupMoves (m :: ms) = (Text.ofInt m.source, [m.row]) :: groupMoves ms) := by
  rw [groupMoves]
  cases groupMoves ms with
  | nil => exact .inr ⟨by simp, rfl⟩
  | cons entry entries =>
    obtain ⟨name, rows⟩ := entry
    by_cases hname : name = Text.ofInt m.source
    · subst hname
      refine .inl ⟨rows, entries, rfl, ?_⟩
      simp only [↓reduceIte]
      rfl
    · refine .inr ⟨by simpa using hname, ?_⟩
      simp only [if_neg hname]
      rfl

/-- Grouping moves does not change their order. -/
theorem edgesOf_groupMoves (ms : List Move) :
    edgesOf (groupMoves ms) = (ms.map Move.edge).map nameEdge := by
  induction ms with
  | nil => rfl
  | cons m ms ih =>
    rw [List.map_cons, List.map_cons, ← ih]
    rcases groupMoves_cons m ms with ⟨rows, entries, hms, hcons⟩ | ⟨-, hcons⟩
    · rw [hcons, hms]
      rfl
    · rw [hcons]
      rfl

/-- An entry has the moves of one state, and one of them at least. -/
theorem exists_move_of_mem {entry : Text × List (Symbol × List Text)}
    (h : entry ∈ groupMoves ms) : entry.2 ≠ [] ∧
      ∀ row ∈ entry.2, ∃ m ∈ ms, entry.1 = .ofInt m.source ∧ row = m.row := by
  induction ms generalizing entry with
  | nil => cases h
  | cons m ms ih =>
    have hlater {entry : Text × List (Symbol × List Text)} (hentry : entry ∈ groupMoves ms) :
        entry.2 ≠ [] ∧
          ∀ row ∈ entry.2, ∃ k ∈ m :: ms, entry.1 = .ofInt k.source ∧ row = k.row := by
      refine ⟨(ih hentry).1, fun row hrow => ?_⟩
      obtain ⟨k, hk, hname⟩ := (ih hentry).2 row hrow
      exact ⟨k, List.mem_cons_of_mem m hk, hname⟩
    rcases groupMoves_cons m ms with ⟨rows, entries, hms, hcons⟩ | ⟨-, hcons⟩
    · rw [hms] at hlater
      rw [hcons] at h
      rcases List.mem_cons.mp h with rfl | h
      · refine ⟨List.cons_ne_nil _ _, List.forall_mem_cons.mpr ⟨?_, ?_⟩⟩
        · exact ⟨m, List.mem_cons_self, rfl, rfl⟩
        · exact (hlater List.mem_cons_self).2
      · exact hlater (List.mem_cons_of_mem _ h)
    · rw [hcons] at h
      rcases List.mem_cons.mp h with rfl | h
      · refine ⟨List.cons_ne_nil _ _, fun row hrow => ?_⟩
        exact ⟨m, List.mem_cons_self, rfl, List.mem_singleton.mp hrow⟩
      · exact hlater h

theorem head?_groupMoves (ms : List Move) :
    (groupMoves ms).head?.map Prod.fst = ms.head?.map fun m => .ofInt m.source := by
  cases ms with
  | nil => rfl
  | cons m ms =>
    rcases groupMoves_cons m ms with ⟨rows, entries, -, hcons⟩ | ⟨-, hcons⟩
    · rw [hcons]
      rfl
    · rw [hcons]
      rfl

/-- If moves are in order, those of a state follow each other. -/
theorem notMem_names_groupMoves (h : (m :: ms).Pairwise Move.Precedes)
    (hhead : (groupMoves ms).head?.map Prod.fst ≠ some (Text.ofInt m.source)) :
    Text.ofInt m.source ∉ (groupMoves ms).map Prod.fst := by
  intro hmem
  obtain ⟨entry, hentry, hname⟩ := List.mem_map.mp hmem
  obtain ⟨hne, hrows⟩ := exists_move_of_mem hentry
  obtain ⟨row, hrow⟩ := List.exists_mem_of_ne_nil _ hne
  obtain ⟨k, hk, hsource, -⟩ := hrows row hrow
  have hsource : k.source = m.source := Text.ofInt_injective (hsource.symm.trans hname)
  cases ms with
  | nil => cases hk
  | cons first rest =>
    rw [head?_groupMoves] at hhead
    have hfirst : first.source ≠ m.source := fun hsame => hhead (by simp [hsame])
    have hm := List.pairwise_cons.mp h
    have hle : first.source ≤ k.source := by
      rcases List.mem_cons.mp hk with rfl | hk
      · exact Int.le_refl _
      · rcases (List.pairwise_cons.mp hm.2).1 k hk with hlt | ⟨heq, -⟩
        · exact Int.le_of_lt hlt
        · exact Int.le_of_eq heq
    rcases hm.1 first List.mem_cons_self with hlt | ⟨heq, -⟩
    · omega
    · exact hfirst heq.symm

theorem nodup_names_groupMoves (h : ms.Pairwise Move.Precedes) :
    ((groupMoves ms).map Prod.fst).Nodup := by
  induction ms with
  | nil => exact .nil
  | cons m ms ih =>
    have hms := ih (List.pairwise_cons.mp h).2
    rcases groupMoves_cons m ms with ⟨rows, entries, heq, hcons⟩ | ⟨hhead, hcons⟩
    · rw [heq] at hms
      rw [hcons]
      exact hms
    · rw [hcons]
      exact List.nodup_cons.mpr ⟨notMem_names_groupMoves h hhead, hms⟩

theorem nodup_symbols_groupMoves (h : ms.Pairwise Move.Precedes)
    {entry : Text × List (Symbol × List Text)} (hentry : entry ∈ groupMoves ms) :
    (entry.2.map Prod.fst).Nodup := by
  induction ms generalizing entry with
  | nil => cases hentry
  | cons m ms ih =>
    have hm := List.pairwise_cons.mp h
    rcases groupMoves_cons m ms with ⟨rows, entries, heq, hcons⟩ | ⟨-, hcons⟩
    · rw [hcons] at hentry
      rw [heq] at ih
      rcases List.mem_cons.mp hentry with rfl | hentry
      · refine List.nodup_cons.mpr ⟨fun hsymbol => ?_, ih hm.2 List.mem_cons_self⟩
        obtain ⟨row, hrow, hsame⟩ := List.mem_map.mp hsymbol
        obtain ⟨k, hk, hname, rfl⟩ :=
          (exists_move_of_mem (heq ▸ List.mem_cons_self)).2 row hrow
        exact (hm.1 k hk).not_same ⟨(Text.ofInt_injective hname), hsame.symm⟩
      · exact ih hm.2 (List.mem_cons_of_mem _ hentry)
    · rw [hcons] at hentry
      rcases List.mem_cons.mp hentry with rfl | hentry
      · exact List.nodup_singleton _
      · exact ih hm.2 hentry

/-- A graph with the states, the alphabet, the start, the accepting states and the moves of an
automaton. -/
structure IsGraph (d : Dfa) (g : FiniteAutomaton) : Prop where
  states_eq : g.states = (List.range d.states.toNat).map fun (q : Nat) => (q : Int)
  length_states : (g.states.length : Int) = d.states
  alphabet_eq : g.alphabet = d.alphabet
  start_eq : g.start = start
  accepting_eq : g.accepting = d.accepting
  mem_edges : ∀ p a q, (p, a, q) ∈ g.edges ↔ d.next? p a = some q

section OfNfa

variable {n : Nfa} (symbols : Alphabet)

/-- The moves are found in the order in which they are written. -/
theorem transitions_toDictionary (hn : n.WellFormed) :
    (ofNfa n symbols).toDictionary.transitions = groupMoves (ofNfa n symbols).moves := by
  have hsorted := (ascending_ofNfa hn symbols).imp Move.keyLE_of_precedes
  rw [toDictionary, List.mergeSort_of_pairwise hsorted]

/-- An automaton of the subset construction is read back from its dictionary form. -/
theorem decode_toDictionary (hn : n.WellFormed) :
    ∃ g, (ofNfa n symbols).toDictionary.decode = some g ∧ (ofNfa n symbols).IsGraph g := by
  have hstates : (ofNfa n symbols).toDictionary.states =
      ((List.range (ofNfa n symbols).states.toNat).map fun (q : Nat) => (q : Int)).map .ofInt := by
    rw [List.map_map]
    rfl
  have hedges : edgesOf (ofNfa n symbols).toDictionary.transitions =
      ((ofNfa n symbols).moves.map Move.edge).map nameEdge := by
    rw [transitions_toDictionary symbols hn, edgesOf_groupMoves]
  have hstart : (ofNfa n symbols).toDictionary.start = .ofInt start := rfl
  have haccepting : (ofNfa n symbols).toDictionary.accepting =
      (ofNfa n symbols).accepting.toList.map .ofInt := rfl
  refine ⟨_, Dictionary.decode_eq hstates hstart haccepting hedges, ?_⟩
  exact {
    states_eq := rfl
    length_states := by
      rw [List.length_map, List.length_range]
      exact Int.toNat_of_nonneg (Int.natCast_nonneg _)
    alphabet_eq := SortedSet.ext fun a => SortedSet.mem_ofList
    start_eq := rfl
    accepting_eq := SortedSet.ext fun q => SortedSet.mem_ofList
    mem_edges := fun p a q => by
      rw [next?_ofNfa_iff_mem hn, List.mem_map]
      constructor
      · rintro ⟨⟨p', a', q'⟩, hm, heq⟩
        cases heq
        exact hm
      · exact fun hm => ⟨⟨p, a, q⟩, hm, rfl⟩ }

theorem regular_toDictionary (hn : n.WellFormed) :
    Regular (ofNfa n symbols).toDictionary := by
  have hascending := ascending_ofNfa hn symbols
  have htransitions := transitions_toDictionary symbols hn
  refine ⟨?_, fun entry hentry => ?_, fun entry hentry row hrow => ?_⟩
  · rw [htransitions]
    exact nodup_names_groupMoves hascending
  · rw [htransitions] at hentry
    exact ⟨(exists_move_of_mem hentry).1, nodup_symbols_groupMoves hascending hentry⟩
  · rw [htransitions] at hentry
    obtain ⟨m, -, -, rfl⟩ := (exists_move_of_mem hentry).2 row hrow
    exact ⟨[m.target], rfl, List.cons_ne_nil _ _, List.pairwise_singleton _ _⟩

end OfNfa

end Dfa

end RegexAutomata
