/-
Drawings of automata.

The text that an automaton is written as determines the automaton, whatever code points its symbols
are: the text determines the drawing, and no two edges are drawn in the same way, since no symbol of
one code point is the word that silent edges are labelled with.

* `Dot.Edge.pairwise_precedes_mergeSort` — edges are drawn in ascending order;
* `Nfa.bijOn_drawn`, `Dfa.bijOn_drawn` — each edge of the automaton is drawn once;
* `Nfa.drawing_eq_iff`, `Dfa.drawing_eq_iff` — which automata have the same drawing;
* `render_determines` — the same for their texts.
-/
import RegexAutomata.Proofs.Dfa.Determinized
import RegexAutomata.Proofs.Dot.Render
import RegexAutomata.Proofs.Nfa.Transitions

namespace RegexAutomata

/-! ### The order of the edges -/

namespace Dot.Edge

/-- Edges are ordered by source, then by target, then by label. -/
def Precedes (e f : Edge) : Prop :=
  e.source < f.source ∨ e.source = f.source ∧
    (e.target < f.target ∨ e.target = f.target ∧ compare e.label f.label = .lt)

theorem precedes_of_cmp {e f : Edge} (h : cmp e f = .lt) : e.Precedes f := by
  simp only [cmp, compareLex, compareOn, Ordering.then_eq_lt, Int.compare_eq_lt,
    Std.LawfulEqCmp.compare_eq_iff_eq] at h
  exact h

/-- Edges without repetitions are sorted into strictly ascending order. -/
theorem pairwise_precedes_mergeSort {es : List Edge} (h : es.Nodup) :
    (es.mergeSort le).Pairwise Precedes :=
  (pairwise_mergeSort_lt cmp (fun _ _ => eq_of_cmp) h).imp precedes_of_cmp

end Dot.Edge

/-- The text of a drawing has one line for each edge, in strictly ascending order, behind the lines
of the states and the one of the arrow to the start state. -/
structure Dot.Drawing.Lists {α : Type} (d : Drawing) (drawn : α → Edge) (edges : Set α) : Prop where
  text : d.render = "digraph " ++ d.name ++ " \x7b\n" ++ d.accepting.flatMap acceptingLine ++
    startLines d.start ++ d.labels.flatMap labelLine ++ d.edges.flatMap edgeLine ++ "\x7d\n"
  once : Set.BijOn drawn edges {e | e ∈ d.edges}
  ascending : d.edges.Pairwise Edge.Precedes

/-! ### Nondeterministic automata -/

namespace Nfa

variable {n m : Nfa}

/-- How an edge is drawn. -/
def drawn (e : Int × Symbol × Int) : Dot.Edge := ⟨e.1, e.2.2, Dot.edgeLabel e.2.1⟩

/-- The edges of an automaton. -/
def edgeSet (n : Nfa) : Set (Int × Symbol × Int) := {e | n.Edge e.1 e.2.1 e.2.2}

theorem edgeSet_eq_iff : n.edgeSet = m.edgeSet ↔ ∀ p a q, n.Edge p a q ↔ m.Edge p a q := by
  simp only [Set.ext_iff, Prod.forall]
  rfl

/-- Every edge reads nothing or a single code point. -/
def SingleLabels (n : Nfa) : Prop := ∀ e ∈ n.edgeSet, e.2.1 = epsilon ∨ ∃ c, e.2.1 = [c]

theorem Sound.singleLabels (hn : n.Sound) (h : ∀ a ∈ n.alphabet, ∃ c, a = [c]) : n.SingleLabels :=
  fun _ he => (hn.labelsKnown he).imp_right (h _)

/-- No single code point is labelled like silent edges. -/
theorem edgeLabel_inj {a b : Symbol} (ha : a = epsilon ∨ ∃ c, a = [c])
    (hb : b = epsilon ∨ ∃ c, b = [c]) (h : Dot.edgeLabel a = Dot.edgeLabel b) : a = b := by
  have hsingle (c : CodePoint) : Dot.edgeLabel [c] = [c] := if_neg (List.cons_ne_nil c [])
  have hword (c : CodePoint) : Dot.edgeLabel epsilon ≠ [c] := by
    intro h
    have hlength : 7 = 1 := congrArg List.length h
    omega
  rcases ha with rfl | ⟨c, rfl⟩
  · rcases hb with rfl | ⟨c, rfl⟩
    · rfl
    · exact absurd (h.trans (hsingle c)) (hword c)
  · rcases hb with rfl | ⟨d, rfl⟩
    · exact absurd (h.symm.trans (hsingle c)) (hword c)
    · rwa [hsingle, hsingle] at h

theorem drawn_inj {e f : Int × Symbol × Int} (he : e.2.1 = epsilon ∨ ∃ c, e.2.1 = [c])
    (hf : f.2.1 = epsilon ∨ ∃ c, f.2.1 = [c]) (h : drawn e = drawn f) : e = f := by
  obtain ⟨hsource, htarget, hlabel⟩ := Dot.Edge.mk.inj h
  exact Prod.ext hsource (Prod.ext (edgeLabel_inj he hf hlabel) htarget)

theorem edges_drawing (n : Nfa) :
    n.drawing.edges = (n.edges.map drawn).mergeSort Dot.Edge.le := by
  rw [drawing, edges, List.map_flatMap]
  simp only [List.map_map]
  rfl

/-- Each edge is drawn once. -/
theorem bijOn_drawn (h : n.Tidy) (hlabels : n.SingleLabels) :
    Set.BijOn drawn n.edgeSet {e | e ∈ n.drawing.edges} := by
  have hmem (e : Dot.Edge) : e ∈ n.drawing.edges ↔ ∃ t ∈ n.edgeSet, drawn t = e := by
    rw [edges_drawing, List.mem_mergeSort, List.mem_map]
    exact exists_congr fun t => and_congr_left' h.mem_edges
  refine ⟨?_, ?_, ?_⟩
  · exact fun t ht => (hmem _).mpr ⟨t, ht, rfl⟩
  · exact fun t ht s hs => drawn_inj (hlabels t ht) (hlabels s hs)
  · exact fun e he => (hmem e).mp he

theorem pairwise_precedes_drawing (h : n.Tidy) (hlabels : n.SingleLabels) :
    n.drawing.edges.Pairwise Dot.Edge.Precedes := by
  rw [edges_drawing]
  refine Dot.Edge.pairwise_precedes_mergeSort (h.nodup_edges.map_on ?_)
  intro e he f hf
  exact drawn_inj (hlabels e (h.mem_edges.mp he)) (hlabels f (h.mem_edges.mp hf))

theorem edgeSet_subset_of_edges_eq (hn : n.Tidy) (hm : m.Tidy) (hnl : n.SingleLabels)
    (hml : m.SingleLabels) (h : n.drawing.edges = m.drawing.edges) : n.edgeSet ⊆ m.edgeSet := by
  intro e he
  have hmem : drawn e ∈ m.drawing.edges := h ▸ (bijOn_drawn hn hnl).mapsTo he
  obtain ⟨f, hf, heq⟩ := (bijOn_drawn hm hml).surjOn hmem
  exact drawn_inj (hml f hf) (hnl e he) heq ▸ hf

theorem edges_drawing_eq_iff (hn : n.Tidy) (hm : m.Tidy) (hnl : n.SingleLabels)
    (hml : m.SingleLabels) : n.drawing.edges = m.drawing.edges ↔ n.edgeSet = m.edgeSet := by
  constructor
  · intro h
    exact (edgeSet_subset_of_edges_eq hn hm hnl hml h).antisymm
      (edgeSet_subset_of_edges_eq hm hn hml hnl h.symm)
  · intro h
    have hperm : n.edges.Perm m.edges := by
      rw [List.perm_ext_iff_of_nodup hn.nodup_edges hm.nodup_edges]
      intro e
      rw [hn.mem_edges, hm.mem_edges]
      exact Set.ext_iff.mp h e
    rw [edges_drawing, edges_drawing]
    exact Dot.Edge.mergeSort_eq_of_perm (hperm.map drawn)

/-- Automata have the same drawing if their states, ends and edges are the same. -/
theorem drawing_eq_iff (hn : n.Tidy) (hm : m.Tidy) (hnl : n.SingleLabels) (hml : m.SingleLabels) :
    n.drawing = m.drawing ↔
      n.size = m.size ∧ n.start = m.start ∧ n.finish = m.finish ∧ n.edgeSet = m.edgeSet := by
  rw [← edges_drawing_eq_iff hn hm hnl hml]
  constructor
  · intro h
    have hsize : n.size = m.size := by
      have hlabels := congrArg (fun d => d.labels.length) h
      simpa [drawing] using hlabels
    have hfinish : n.finish = m.finish := List.singleton_inj.mp (congrArg Dot.Drawing.accepting h)
    exact ⟨hsize, congrArg Dot.Drawing.start h, hfinish, congrArg Dot.Drawing.edges h⟩
  · rintro ⟨hsize, hstart, hfinish, hedges⟩
    have hlabels : n.drawing.labels = m.drawing.labels := by
      simp only [drawing, hsize]
    have haccepting : n.drawing.accepting = m.drawing.accepting :=
      List.singleton_inj.mpr hfinish
    exact Dot.Drawing.ext rfl hstart haccepting hlabels hedges

theorem isCalm_of_mem_labels (n : Nfa) : ∀ x ∈ n.drawing.labels, Dot.IsCalm x.2 := by
  intro x hx
  obtain ⟨q, -, rfl⟩ := List.mem_map.mp hx
  exact Dot.isCalm_ofInt q

theorem render_eq_iff (n m : Nfa) : n.drawing.render = m.drawing.render ↔ n.drawing = m.drawing :=
  ⟨Dot.Drawing.eq_of_render_eq rfl n.isCalm_of_mem_labels m.isCalm_of_mem_labels,
    congrArg Dot.Drawing.render⟩

end Nfa

/-! ### Subset automata -/

namespace Dfa

/-- How a move is drawn. -/
def Move.drawn (m : Move) : Dot.Edge := ⟨m.source, m.target, m.symbol⟩

/-- The moves of an automaton that can be taken. -/
def moveSet (d : Dfa) : Set Move := {m | d.next? m.source m.symbol = some m.target}

theorem moveSet_eq_iff {d e : Dfa} :
    d.moveSet = e.moveSet ↔ ∀ q a, d.next? q a = e.next? q a := by
  constructor
  · intro h q a
    refine Option.ext fun r => ?_
    exact Set.ext_iff.mp h ⟨q, a, r⟩
  · intro h
    refine Set.ext fun m => ?_
    show d.next? m.source m.symbol = _ ↔ e.next? m.source m.symbol = _
    rw [h]

theorem Move.drawn_injective : Function.Injective drawn := by
  rintro ⟨source, symbol, target⟩ ⟨source', symbol', target'⟩ h
  obtain ⟨rfl, rfl, rfl⟩ := Dot.Edge.mk.inj h
  rfl

theorem edges_drawing (d : Dfa) :
    d.drawing.edges = (d.moves.map Move.drawn).mergeSort Dot.Edge.le := rfl

variable {n m : Nfa} {alphabet alphabet' : Alphabet} {q : Int}

theorem mem_moveSet_ofNfa (hn : n.WellFormed) {m : Move} :
    m ∈ (ofNfa n alphabet).moveSet ↔ m ∈ (ofNfa n alphabet).moves := next?_ofNfa_iff_mem hn

theorem nodup_moves_ofNfa (hn : n.WellFormed) (alphabet : Alphabet) :
    (ofNfa n alphabet).moves.Nodup := by
  refine (ascending_ofNfa hn alphabet).imp fun h => ?_
  rintro rfl
  exact h.not_same ⟨rfl, rfl⟩

/-- Each move is drawn once. -/
theorem bijOn_drawn (hn : n.WellFormed) (alphabet : Alphabet) :
    Set.BijOn Move.drawn (ofNfa n alphabet).moveSet
      {e | e ∈ (ofNfa n alphabet).drawing.edges} := by
  have hmem (e : Dot.Edge) : e ∈ (ofNfa n alphabet).drawing.edges ↔
      ∃ m ∈ (ofNfa n alphabet).moveSet, m.drawn = e := by
    rw [edges_drawing, List.mem_mergeSort, List.mem_map]
    exact exists_congr fun m => and_congr_left' (mem_moveSet_ofNfa hn).symm
  refine ⟨?_, ?_, ?_⟩
  · exact fun m hm => (hmem _).mpr ⟨m, hm, rfl⟩
  · exact Move.drawn_injective.injOn
  · exact fun e he => (hmem e).mp he

theorem pairwise_precedes_drawing (hn : n.WellFormed) (alphabet : Alphabet) :
    (ofNfa n alphabet).drawing.edges.Pairwise Dot.Edge.Precedes :=
  Dot.Edge.pairwise_precedes_mergeSort ((nodup_moves_ofNfa hn alphabet).map Move.drawn_injective)

/-! Labels of states. -/

theorem lookup_range_map {α : Type} (f : Nat → α) (k : Nat) (q : Int) :
    ((List.range k).map fun (i : Nat) => ((i : Int), f i)).lookup q =
      if 0 ≤ q ∧ q < k then some (f q.toNat) else none := by
  have hzip : ((List.range k).map f).zipIdx.map (fun e => ((e.2 : Int), e.1)) =
      (List.range k).map fun (i : Nat) => ((i : Int), f i) := by
    refine List.ext_getElem (by simp) fun i h₁ h₂ => ?_
    simp
  refine (congrArg (List.lookup q) hzip.symm).trans ((lookup_zipIdx _ 0 q).trans ?_)
  by_cases hq : 0 ≤ q
  · obtain ⟨i, rfl⟩ := Int.eq_ofNat_of_zero_le hq
    by_cases hi : i < k <;> simp [hi]
  · rw [if_neg (by omega), if_neg (by omega)]

theorem states_nonneg_ofNfa (n : Nfa) (alphabet : Alphabet) : 0 ≤ (ofNfa n alphabet).states :=
  Int.natCast_nonneg _

/-- What is drawn on a state is its label. -/
theorem lookup_labels_drawing (n : Nfa) (alphabet : Alphabet) (q : Int) :
    (ofNfa n alphabet).drawing.labels.lookup q = (ofNfa n alphabet).labels.lookup q := by
  have hexists := exists_lookup_labels_ofNfa n alphabet q
  have hstates := Int.toNat_of_nonneg (states_nonneg_ofNfa n alphabet)
  show ((List.range _).map fun (i : Nat) => ((i : Int), _)).lookup q = _
  rw [lookup_range_map, hstates]
  by_cases hq : 0 ≤ q ∧ q < (ofNfa n alphabet).states
  · obtain ⟨label, hlabel⟩ := hexists.mpr hq
    rw [if_pos hq, Int.toNat_of_nonneg hq.1, hlabel]
    rfl
  · rw [if_neg hq]
    refine (Option.eq_none_iff_forall_ne_some.mpr ?_).symm
    exact fun label hlabel => hq (hexists.mp ⟨label, hlabel⟩)

theorem edges_drawing_eq_iff (hn : n.WellFormed) (hm : m.WellFormed) :
    (ofNfa n alphabet).drawing.edges = (ofNfa m alphabet').drawing.edges ↔
      (ofNfa n alphabet).moveSet = (ofNfa m alphabet').moveSet := by
  constructor
  · intro h
    have himage := (bijOn_drawn hn alphabet).image_eq
    rw [h, ← (bijOn_drawn hm alphabet').image_eq] at himage
    exact Move.drawn_injective.image_injective himage
  · intro h
    have hperm : (ofNfa n alphabet).moves.Perm (ofNfa m alphabet').moves := by
      rw [List.perm_ext_iff_of_nodup (nodup_moves_ofNfa hn alphabet)
        (nodup_moves_ofNfa hm alphabet')]
      intro k
      rw [← mem_moveSet_ofNfa hn, ← mem_moveSet_ofNfa hm, h]
    exact Dot.Edge.mergeSort_eq_of_perm (hperm.map Move.drawn)

/-- Subset automata have the same drawing if their states, moves, accepting states and labels are
the same. -/
theorem drawing_eq_iff (hn : n.WellFormed) (hm : m.WellFormed) :
    (ofNfa n alphabet).drawing = (ofNfa m alphabet').drawing ↔
      (ofNfa n alphabet).states = (ofNfa m alphabet').states ∧
      (ofNfa n alphabet).moveSet = (ofNfa m alphabet').moveSet ∧
      (ofNfa n alphabet).accepting = (ofNfa m alphabet').accepting ∧
      ∀ q, (ofNfa n alphabet).labels.lookup q = (ofNfa m alphabet').labels.lookup q := by
  rw [← edges_drawing_eq_iff hn hm]
  constructor
  · intro h
    have hstates : (ofNfa n alphabet).states = (ofNfa m alphabet').states := by
      have hlabels := congrArg (fun d => d.labels.length) h
      simp only [drawing, List.length_map, List.length_range] at hlabels
      have hn := states_nonneg_ofNfa n alphabet
      have hm := states_nonneg_ofNfa m alphabet'
      omega
    refine ⟨hstates, congrArg Dot.Drawing.edges h, ?_, ?_⟩
    · exact SortedSet.toList_inj.mp (congrArg Dot.Drawing.accepting h)
    · intro q
      rw [← lookup_labels_drawing, h, lookup_labels_drawing]
  · rintro ⟨hstates, hedges, haccepting, hlabels⟩
    have hdrawn : (ofNfa n alphabet).drawing.labels = (ofNfa m alphabet').drawing.labels := by
      simp only [drawing, hstates, hlabels]
    exact Dot.Drawing.ext rfl rfl (congrArg SortedSet.toList haccepting) hdrawn hedges

/-- The label of a set begins with a brace, and there is nothing in it but numbers and what stands
between them. -/
theorem isCalm_subsetLabel (l : List Int) : Dot.IsCalm (subsetLabel l) := by
  refine ⟨fun hmem => ?_, fun hhead => ?_⟩
  · rw [subsetLabel, List.mem_append, List.mem_append] at hmem
    rcases hmem with (hmem | hmem) | hmem
    · exact absurd hmem (by decide)
    · rcases Text.mem_join hmem with hmem | ⟨t, ht, hmem⟩
      · exact absurd hmem (by decide)
      · obtain ⟨q, -, rfl⟩ := List.mem_map.mp ht
        exact Text.notMem_ofInt rfl (by decide) q hmem
    · exact absurd hmem (by decide)
  · exact absurd (Option.some.inj hhead) (by decide)

theorem isCalm_of_mem_labels (n : Nfa) (alphabet : Alphabet) :
    ∀ x ∈ (ofNfa n alphabet).drawing.labels, Dot.IsCalm x.2 := by
  intro x hx
  obtain ⟨q, -, rfl⟩ := List.mem_map.mp hx
  show Dot.IsCalm (Option.getD _ _)
  rw [lookup_labels_ofNfa]
  cases (ofNfa n alphabet).subset? q with
  | none => exact Dot.isCalm_ofInt q
  | some s => exact isCalm_subsetLabel s.toList

theorem render_eq_iff (n m : Nfa) (alphabet alphabet' : Alphabet) :
    (ofNfa n alphabet).drawing.render = (ofNfa m alphabet').drawing.render ↔
      (ofNfa n alphabet).drawing = (ofNfa m alphabet').drawing :=
  ⟨Dot.Drawing.eq_of_render_eq rfl (isCalm_of_mem_labels n alphabet)
    (isCalm_of_mem_labels m alphabet'), congrArg Dot.Drawing.render⟩

end Dfa

/-! ### Texts of automata -/

open Nfa (Operation)

/-- The texts of two automata that operations made, with symbols of one code point, are the same
just if the automata have as many states, the same ends and the same edges. The texts of subset
automata are the same just if these have as many states, the same moves, the same accepting states
and the same labels. Each text has one line for each edge, in strictly ascending order. -/
theorem render_determines (alphabet alphabet' : Alphabet) (ops ops' : List Operation)
    (h : ∀ a ∈ alphabet, ∃ c, a = [c]) (h' : ∀ a ∈ alphabet', ∃ c, a = [c]) :
    let n := Operation.after (.empty alphabet) ops
    let m := Operation.after (.empty alphabet') ops'
    (n.drawing.render = m.drawing.render ↔
      n.size = m.size ∧ n.start = m.start ∧ n.finish = m.finish ∧
        ∀ p a q, n.Edge p a q ↔ m.Edge p a q) ∧
    n.drawing.Lists Nfa.drawn n.edgeSet ∧
    ∀ symbols symbols' : Alphabet,
      let d := Dfa.ofNfa n symbols
      let e := Dfa.ofNfa m symbols'
      (d.drawing.render = e.drawing.render ↔
        d.states = e.states ∧ (∀ q a, d.next? q a = e.next? q a) ∧ d.accepting = e.accepting ∧
          ∀ q, d.labels.lookup q = e.labels.lookup q) ∧
      d.drawing.Lists Dfa.Move.drawn d.moveSet := by
  intro n m
  have hn : n.Sound := Nfa.sound_after alphabet ops
  have hm : m.Sound := Nfa.sound_after alphabet' ops'
  have htidy : n.Tidy := Nfa.tidy_after alphabet ops
  have htidy' : m.Tidy := Nfa.tidy_after alphabet' ops'
  have hsingle : n.SingleLabels := by
    refine hn.singleLabels ?_
    rwa [Operation.alphabet_after]
  have hsingle' : m.SingleLabels := by
    refine hm.singleLabels ?_
    rwa [Operation.alphabet_after]
  refine ⟨?_, ⟨rfl, n.bijOn_drawn htidy hsingle, n.pairwise_precedes_drawing htidy hsingle⟩, ?_⟩
  · rw [Nfa.render_eq_iff, Nfa.drawing_eq_iff htidy htidy' hsingle hsingle', Nfa.edgeSet_eq_iff]
  · intro symbols symbols' d e
    refine ⟨?_, ⟨rfl, Dfa.bijOn_drawn hn.wellFormed symbols,
      Dfa.pairwise_precedes_drawing hn.wellFormed symbols⟩⟩
    rw [Dfa.render_eq_iff, Dfa.drawing_eq_iff hn.wellFormed hm.wellFormed, Dfa.moveSet_eq_iff]

open Nfa.Operation Nfa.Change in
/-- An edge with a quote and an edge with a backslash, which is written before a quote. -/
theorem render_determines_quote :
    let alphabet := Alphabet.ofTexts ["\"\\"]
    let made (a : Symbol) := Operation.after (.empty alphabet)
      [change newState, change newState, change (addTransition 0 a 1), change (setFinish 1)]
    (∀ a ∈ alphabet, ∃ c, a = [c]) ∧
      (made "\"").drawing.render ≠ (made "\\").drawing.render ∧
      (Dfa.ofNfa (made "\"") alphabet).drawing.render ≠
        (Dfa.ofNfa (made "\\") alphabet).drawing.render := by
  intro alphabet made
  have halphabet : ∀ a ∈ alphabet, ∃ c, a = [c] := by
    intro a ha
    obtain ⟨-, -, c, -, rfl⟩ := Alphabet.mem_ofTexts.mp ha
    exact ⟨c, rfl⟩
  have hdetermines := render_determines alphabet alphabet
    [change newState, change newState, change (addTransition 0 "\"" 1), change (setFinish 1)]
    [change newState, change newState, change (addTransition 0 "\\" 1), change (setFinish 1)]
    halphabet halphabet
  refine ⟨halphabet, ?_, ?_⟩
  · intro h
    have hedge : 1 ∈ (made "\"").targets 0 "\"" ∧ 1 ∉ (made "\\").targets 0 "\"" := by
      decide +kernel
    exact hedge.2 (((hdetermines.1.mp h).2.2.2 0 "\"" 1).mp hedge.1)
  · intro h
    have hmove : (Dfa.ofNfa (made "\"") alphabet).next? 0 "\"" ≠
        (Dfa.ofNfa (made "\\") alphabet).next? 0 "\"" := by
      decide +kernel
    exact hmove (((hdetermines.2.2 alphabet alphabet).1.mp h).2.1 0 "\"")

end RegexAutomata
