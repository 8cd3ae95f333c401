/-
What the subset construction promises.

`Determinized n symbols d` says what a deterministic automaton has to be in order to be the subset
automaton of a nondeterministic one: which states it has, for which sets they stand, where each
symbol leads from each of them, and which of them accept.

* `reachable_ofNfa` — every state is reached from the start along moves;
* `determinized_ofNfa` — the construction gives such an automaton, whatever operations built the
  nondeterministic one; it ends with every state processed.
-/
import RegexAutomata.Proofs.Dfa.OfNfa
import RegexAutomata.Proofs.Nfa.Operation

namespace RegexAutomata.Dfa

open Relation (ReflTransGen)

/-- The moves from a state on a symbol. -/
def movesOn (d : Dfa) (q : Int) (a : Symbol) : List Move :=
  d.moves.filter fun m => m.source = q ∧ m.symbol = a

/-- The numbers below the number of states, in order. -/
def ids (d : Dfa) : List Int := (List.range d.states.toNat).map Int.ofNat

/-- A deterministic automaton is the subset automaton of a nondeterministic one, with moves on some
symbols. -/
structure Determinized (n : Nfa) (symbols : Alphabet) (d : Dfa) : Prop where
  alphabet_eq : d.alphabet = symbols
  /-- there is a start state -/
  states_pos : 0 < d.states
  subset_ids : d.subsets.map Prod.fst = d.ids
  label_ids : d.labels.map Prod.fst = d.ids
  subset_inj : ∀ {q r s}, d.subset? q = some s → d.subset? r = some s → q = r
  start : ∃ s, d.subset? start = some s ∧ ∀ x, x ∈ s ↔ x = n.start ∨ x ∈ n.closure n.start
  /-- there is no move where a symbol leads nowhere -/
  movesOn_eq_nil : ∀ {q s a}, d.subset? q = some s → a ∈ symbols → (∀ p ∈ s, n.connected p a = ∅) →
    d.movesOn q a = []
  /-- there is one move where a symbol leads somewhere, and it leads to what can be reached -/
  movesOn_eq_singleton : ∀ {q s a}, d.subset? q = some s → a ∈ symbols →
    (∃ p ∈ s, n.connected p a ≠ ∅) → ∃ r t, d.movesOn q a = [⟨q, a, r⟩] ∧ d.subset? r = some t ∧
      ∀ x, x ∈ t ↔ ∃ p ∈ s, x ∈ n.connected p a
  /-- there are no other moves -/
  moves_known : ∀ m ∈ d.moves, m.symbol ∈ symbols ∧ ∃ s, d.subset? m.source = some s
  accepting_iff : ∀ q, q ∈ d.accepting ↔ ∃ s, d.subset? q = some s ∧ n.finish ∈ s
  nonempty : ∀ {q s}, d.subset? q = some s → ∃ x, x ∈ s
  silentClosed : ∀ {q s}, d.subset? q = some s → n.SilentClosed s
  reachable : ∀ {q s}, d.subset? q = some s →
    ReflTransGen (fun p r => ∃ a, ⟨p, a, r⟩ ∈ d.moves) Dfa.start q

variable {n : Nfa} {alphabet : Alphabet} {s : StateSet} {q : Int} {a : Symbol}

/-! ### States -/

theorem subset_ids_ofNfa (n : Nfa) (alphabet : Alphabet) :
    (ofNfa n alphabet).subsets.map Prod.fst = (ofNfa n alphabet).ids := by
  have hsnd := List.zipIdx_map_snd 0 (Subsets.complete n alphabet.toList).found.toList
  rw [← List.range_eq_range', Array.length_toList] at hsnd
  show _ = (List.range (Subsets.complete n alphabet.toList).found.size).map Int.ofNat
  rw [← hsnd, List.map_map]
  show List.map Prod.fst (List.map _ _) = _
  rw [List.map_map]
  rfl

theorem label_ids_ofNfa (n : Nfa) (alphabet : Alphabet) :
    (ofNfa n alphabet).labels.map Prod.fst = (ofNfa n alphabet).ids := by
  rw [← subset_ids_ofNfa, ofNfa, List.map_map]
  rfl

theorem exists_mem_subset (hn : n.WellFormed) (hq : (ofNfa n alphabet).subset? q = some s) :
    ∃ x, x ∈ s := by
  rcases subset?_ofNfa_eq_start_or_step hn hq with rfl | ⟨t, a, rfl, hne⟩
  · exact ⟨n.start, (Nfa.mem_startStates hn _).mpr .refl⟩
  · exact SortedSet.isEmpty_eq_false_iff.mp hne

theorem silentClosed_subset (hn : n.WellFormed) (hq : (ofNfa n alphabet).subset? q = some s) :
    n.SilentClosed s := by
  rcases subset?_ofNfa_eq_start_or_step hn hq with rfl | ⟨t, a, rfl, -⟩
  · exact hn.silentClosed_startStates
  · exact hn.silentClosed_step t a

/-- Going back from a state to an earlier one that has a move to it ends at the start. -/
theorem reachable_ofNfa (hn : n.WellFormed) (h₀ : 0 ≤ q) (hq : q < (ofNfa n alphabet).states) :
    ReflTransGen (fun p r => ∃ a, ⟨p, a, r⟩ ∈ (ofNfa n alphabet).moves) start q := by
  obtain ⟨i, rfl⟩ := Int.eq_ofNat_of_zero_le h₀
  induction i using Nat.strong_induction_on with
  | _ i ih =>
    by_cases hzero : i = 0
    · subst hzero
      exact .refl
    · obtain ⟨⟨p, a, r⟩, hm, rfl, hp, hlt⟩ := exists_move_of_lt hn (by omega) hq
      have hp : 0 ≤ p := hp
      have hlt : p < i := hlt
      have hearlier := ih p.toNat (by omega) (by omega) (by omega)
      rw [Int.toNat_of_nonneg hp] at hearlier
      exact hearlier.tail ⟨a, hm⟩

/-! ### Moves -/

/-- A symbol leads nowhere from a set if it leads nowhere from each of its states. -/
theorem isEmpty_step_iff (n : Nfa) (s : StateSet) (a : Symbol) :
    (n.step s a).isEmpty = true ↔ ∀ p ∈ s, n.connected p a = ∅ := by
  have hmem (x : Int) : x ∈ n.step s a ↔ ∃ p ∈ s, x ∈ n.connected p a := SortedSet.mem_unionOver
  rw [SortedSet.isEmpty_iff]
  constructor
  · intro hempty p hp
    refine SortedSet.ext fun x => ⟨fun hx => ?_, fun hx => absurd hx (SortedSet.not_mem_empty x)⟩
    rw [← hempty, hmem]
    exact ⟨p, hp, hx⟩
  · intro hall
    refine SortedSet.ext fun x => ⟨fun hx => ?_, fun hx => absurd hx (SortedSet.not_mem_empty x)⟩
    obtain ⟨p, hp, hx⟩ := (hmem x).mp hx
    rwa [hall p hp] at hx

theorem movesOn_ofNfa_eq_nil (hn : n.WellFormed) (hq : (ofNfa n alphabet).subset? q = some s)
    (hempty : (n.step s a).isEmpty = true) : (ofNfa n alphabet).movesOn q a = [] := by
  rw [movesOn, List.filter_eq_nil_iff]
  rintro ⟨p, c, r⟩ hm hsame
  obtain ⟨rfl, rfl⟩ : p = q ∧ c = a := of_decide_eq_true hsame
  rw [(mem_moves_ofNfa hn hq hm).2.1] at hempty
  cases hempty

theorem exists_movesOn_ofNfa (hn : n.WellFormed) (hq : (ofNfa n alphabet).subset? q = some s)
    (ha : a ∈ alphabet) (hne : (n.step s a).isEmpty = false) :
    ∃ r, (ofNfa n alphabet).movesOn q a = [⟨q, a, r⟩] ∧
      (ofNfa n alphabet).subset? r = some (n.step s a) := by
  obtain ⟨r, hr⟩ := exists_next?_ofNfa hn hq ha hne
  have hm := mem_moves_of_next? hr
  exact ⟨r, Move.filter_eq_singleton (ascending_ofNfa hn alphabet) hm,
    (mem_moves_ofNfa hn hq hm).2.2⟩

theorem accepting_ofNfa_iff (n : Nfa) (alphabet : Alphabet) (q : Int) :
    q ∈ (ofNfa n alphabet).accepting ↔
      ∃ s, (ofNfa n alphabet).subset? q = some s ∧ n.finish ∈ s := by
  constructor
  · intro hq
    have hstate : ∃ s, (ofNfa n alphabet).subset? q = some s := by
      rw [ofNfa] at hq
      simp only [SortedSet.mem_ofList, List.mem_map, List.mem_filter] at hq
      obtain ⟨⟨p, s⟩, ⟨⟨⟨t, i⟩, hmem, hp⟩, -⟩, rfl⟩ := hq
      obtain ⟨rfl, rfl⟩ := Prod.mk.inj hp
      rw [List.mem_zipIdx_iff_getElem?, Array.getElem?_toList] at hmem
      exact ⟨t, subset?_ofNfa_eq_some_iff.mpr ⟨i, rfl, hmem⟩⟩
    obtain ⟨s, hs⟩ := hstate
    exact ⟨s, hs, (mem_accepting_ofNfa hs).mp hq⟩
  · rintro ⟨s, hs, hfinish⟩
    exact (mem_accepting_ofNfa hs).mpr hfinish

/-! ### The construction -/

theorem determinized_of_wellFormed (hn : n.WellFormed) (symbols : Alphabet) :
    Determinized n symbols (ofNfa n symbols) where
  alphabet_eq := rfl
  states_pos := ((exists_subset?_ofNfa n symbols start).mp ⟨_, subset?_ofNfa_start hn symbols⟩).2
  subset_ids := subset_ids_ofNfa n symbols
  label_ids := label_ids_ofNfa n symbols
  subset_inj hq hr := subset?_ofNfa_inj hq hr
  start := ⟨n.startStates, subset?_ofNfa_start hn symbols, fun _ => SortedSet.mem_insert⟩
  movesOn_eq_nil {q s a} hq _ hempty :=
    movesOn_ofNfa_eq_nil hn hq ((isEmpty_step_iff n s a).mpr hempty)
  movesOn_eq_singleton {q s a} hq ha := by
    rintro ⟨p, hp, hne⟩
    have hstep : (n.step s a).isEmpty = false := by
      rw [← Bool.not_eq_true, isEmpty_step_iff]
      exact fun hempty => hne (hempty p hp)
    obtain ⟨r, hmoves, hr⟩ := exists_movesOn_ofNfa hn hq ha hstep
    exact ⟨r, n.step s a, hmoves, hr, fun _ => SortedSet.mem_unionOver⟩
  moves_known _ hm := exists_subset?_source hn hm
  accepting_iff := accepting_ofNfa_iff n symbols
  nonempty hq := exists_mem_subset hn hq
  silentClosed hq := silentClosed_subset hn hq
  reachable {q s} hq := by
    obtain ⟨h₀, h₁⟩ := (exists_subset?_ofNfa n symbols q).mp ⟨s, hq⟩
    exact reachable_ofNfa hn h₀ h₁

/-- Whatever operations built an automaton, the subset construction gives its subset automaton. When
it ends nothing waits in the queue, and exactly the states that were found have been processed. -/
theorem determinized_ofNfa (alphabet symbols : Alphabet) (ops : List Nfa.Operation) :
    let n := Nfa.Operation.after (.empty alphabet) ops
    let b := Subsets.complete n symbols.toList
    Determinized n symbols (ofNfa n symbols) ∧ b.queue = [] ∧
      ∀ q, q ∈ b.processed ↔ q < b.found.size := by
  intro n b
  have hn : n.WellFormed := (Nfa.sound_after alphabet ops).wellFormed
  refine ⟨determinized_of_wellFormed hn symbols, ?_, ?_⟩
  · exact (Subsets.run_complete hn symbols.toList).2
  · exact (Subsets.inOrder_complete hn symbols.ascending).processed_iff

end RegexAutomata.Dfa
