/-
What the automaton of the subset construction is.

Each of its states stands for a set of states of the nondeterministic automaton (`Dfa.subset?`).

* `subset?_ofNfa_start` — the start state stands for the start set;
* `next?_ofNfa_eq_some_iff` — on a symbol of the alphabet a state moves to the state that stands for
  the set that the symbol leads to, and it has no move if this set is empty;
* `mem_accepting_ofNfa` — a state accepts if the final state is in its set;
* `lookup_labels_ofNfa` — a state is labelled with the states in its set;
* `ascending_ofNfa`, `next?_ofNfa_iff_mem` — the moves are in ascending order, so that no two of them
  are from the same state and on the same symbol;
* `exists_move_of_lt`, `exists_precedes_ofNfa` — the moves by which states were found.
-/
import RegexAutomata.Proofs.Dfa.Discovery

namespace RegexAutomata.Dfa

variable {α : Type}

/-- The set that a state stands for. -/
def subset? (d : Dfa) (q : Int) : Option StateSet := d.subsets.lookup q

/-! ### Look-up -/

/-- Values that are numbered in their order are found by their places. -/
theorem lookup_zipIdx (l : List α) (k : Nat) (q : Int) :
    ((l.zipIdx k).map fun (a, i) => ((i : Int), a)).lookup q =
      if k ≤ q then l[(q - k).toNat]? else none := by
  induction l generalizing k with
  | nil => simp
  | cons a l ih =>
    rw [List.zipIdx_cons, List.map_cons]
    by_cases hk : q = k
    · rw [hk, List.lookup_cons_self, if_pos (Int.le_refl _), Int.sub_self]
      rfl
    · rw [List.lookup_cons, beq_eq_false_iff_ne.mpr hk, ih]
      by_cases hle : (k : Int) ≤ q
      · rw [if_pos hle, if_pos (by omega),
          show (q - k).toNat = (q - (k + 1 : Nat)).toNat + 1 by omega, List.getElem?_cons_succ]
      · rw [if_neg hle, if_neg (by omega)]

theorem mem_moves_of_next? {d : Dfa} {q r : Int} {a : Symbol} (h : d.next? q a = some r) :
    ⟨q, a, r⟩ ∈ d.moves := by
  obtain ⟨m, hm, rfl⟩ := Option.map_eq_some_iff.mp h
  have hfound := List.find?_some hm
  obtain ⟨rfl, rfl⟩ : m.source = q ∧ m.symbol = a := Prod.mk.inj (eq_of_beq hfound)
  exact List.mem_of_find?_eq_some hm

theorem exists_next?_of_mem {d : Dfa} {q r : Int} {a : Symbol} (h : ⟨q, a, r⟩ ∈ d.moves) :
    ∃ r', d.next? q a = some r' := by
  have hsome : (d.moves.find? (·.key == (q, a))).isSome = true :=
    List.find?_isSome.mpr ⟨⟨q, a, r⟩, h, beq_self_eq_true (q, a)⟩
  obtain ⟨m, hm⟩ := Option.isSome_iff_exists.mp hsome
  exact ⟨m.target, congrArg (Option.map Move.target) hm⟩

/-! ### The result of the construction -/

variable {n : Nfa} {alphabet : Alphabet} {s : StateSet} {q r : Int} {a : Symbol}

theorem subset?_ofNfa_eq_some_iff : (ofNfa n alphabet).subset? q = some s ↔
    ∃ i : Nat, q = i ∧ (Subsets.complete n alphabet.toList).found[i]? = some s := by
  have h := lookup_zipIdx (Subsets.complete n alphabet.toList).found.toList 0 q
  have hsubset : (ofNfa n alphabet).subset? q =
      if 0 ≤ q then (Subsets.complete n alphabet.toList).found[q.toNat]? else none := by
    simpa [subset?, ofNfa] using h
  rw [hsubset]
  by_cases hq : 0 ≤ q
  · rw [if_pos hq]
    constructor
    · exact fun h => ⟨q.toNat, by omega, h⟩
    · rintro ⟨i, rfl, hi⟩
      exact hi
  · rw [if_neg hq]
    constructor
    · rintro ⟨⟩
    · rintro ⟨i, rfl, -⟩
      omega

theorem subset?_ofNfa_start (hn : n.WellFormed) (alphabet : Alphabet) :
    (ofNfa n alphabet).subset? start = some n.startStates :=
  subset?_ofNfa_eq_some_iff.mpr ⟨0, rfl, (Subsets.invariant_complete hn alphabet.toList).start⟩

/-- The states with a set are the numbers below the number of states. -/
theorem exists_subset?_ofNfa (n : Nfa) (alphabet : Alphabet) (q : Int) :
    (∃ s, (ofNfa n alphabet).subset? q = some s) ↔ 0 ≤ q ∧ q < (ofNfa n alphabet).states := by
  have hstates : (ofNfa n alphabet).states = (Subsets.complete n alphabet.toList).found.size := rfl
  simp only [subset?_ofNfa_eq_some_iff]
  rw [hstates]
  constructor
  · rintro ⟨s, i, rfl, hi⟩
    have := (Array.getElem?_eq_some_iff.mp hi).1
    omega
  · rintro ⟨h₀, h₁⟩
    have hlt : q.toNat < (Subsets.complete n alphabet.toList).found.size := by omega
    exact ⟨_, q.toNat, by omega, Array.getElem?_eq_getElem hlt⟩

/-- A state is labelled with the states in its set. -/
theorem lookup_labels_ofNfa (n : Nfa) (alphabet : Alphabet) (q : Int) :
    (ofNfa n alphabet).labels.lookup q =
      ((ofNfa n alphabet).subset? q).map fun s => subsetLabel s.toList :=
  Keyed.lookup_map (fun s : StateSet => subsetLabel s.toList) q (ofNfa n alphabet).subsets

/-- Exactly the states have labels. -/
theorem exists_lookup_labels_ofNfa (n : Nfa) (alphabet : Alphabet) (q : Int) :
    (∃ label, (ofNfa n alphabet).labels.lookup q = some label) ↔
      0 ≤ q ∧ q < (ofNfa n alphabet).states := by
  rw [lookup_labels_ofNfa, ← exists_subset?_ofNfa]
  cases (ofNfa n alphabet).subset? q <;> simp

/-- No two states stand for the same set. -/
theorem subset?_ofNfa_inj (hq : (ofNfa n alphabet).subset? q = some s)
    (hr : (ofNfa n alphabet).subset? r = some s) : q = r := by
  have hnumbered : (Subsets.complete n alphabet.toList).Numbered :=
    ((Subsets.Invariant.initial_known n alphabet.toList).run _).numbered
  obtain ⟨i, rfl, hi⟩ := subset?_ofNfa_eq_some_iff.mp hq
  obtain ⟨j, rfl, hj⟩ := subset?_ofNfa_eq_some_iff.mp hr
  have hij := ((hnumbered s i).mpr hi).symm.trans ((hnumbered s j).mpr hj)
  rw [Option.some_inj.mp hij]

/-- The sets that states stand for are the start set and what moves lead to. -/
theorem subset?_ofNfa_eq_start_or_step (hn : n.WellFormed)
    (hq : (ofNfa n alphabet).subset? q = some s) :
    s = n.startStates ∨ ∃ t a, s = n.step t a ∧ s.isEmpty = false := by
  obtain ⟨i, rfl, hi⟩ := subset?_ofNfa_eq_some_iff.mp hq
  exact (Subsets.invariant_complete hn alphabet.toList).eq_start_or_step hi

theorem mem_moves_ofNfa (hn : n.WellFormed) (hq : (ofNfa n alphabet).subset? q = some s)
    (h : ⟨q, a, r⟩ ∈ (ofNfa n alphabet).moves) :
    a ∈ alphabet ∧ (n.step s a).isEmpty = false ∧
      (ofNfa n alphabet).subset? r = some (n.step s a) := by
  obtain ⟨i, rfl, hi⟩ := subset?_ofNfa_eq_some_iff.mp hq
  obtain ⟨j, k, t, hm, hknown, ht, hne, hk⟩ :=
    (Subsets.invariant_complete hn alphabet.toList).sound _ (Array.mem_toList_iff.mp h)
  obtain ⟨hij, rfl⟩ : (i : Int) = j ∧ r = k := ⟨congrArg Move.source hm, congrArg Move.target hm⟩
  obtain rfl : i = j := by omega
  obtain rfl := Option.some_inj.mp (hi.symm.trans ht)
  exact ⟨hknown.2, hne, subset?_ofNfa_eq_some_iff.mpr ⟨k, rfl, hk⟩⟩

/-- A state has a move on every symbol that leads anywhere. -/
theorem exists_next?_ofNfa (hn : n.WellFormed) (hq : (ofNfa n alphabet).subset? q = some s)
    (ha : a ∈ alphabet) (hne : (n.step s a).isEmpty = false) :
    ∃ r, (ofNfa n alphabet).next? q a = some r := by
  obtain ⟨i, rfl, hi⟩ := subset?_ofNfa_eq_some_iff.mp hq
  have hlt := (Array.getElem?_eq_some_iff.mp hi).1
  obtain ⟨r, hm⟩ := (Subsets.invariant_complete hn alphabet.toList).complete i a s ⟨hlt, ha⟩ hi hne
  exact exists_next?_of_mem (Array.mem_toList_iff.mpr hm)

theorem next?_ofNfa_eq_some_iff (hn : n.WellFormed) (hq : (ofNfa n alphabet).subset? q = some s) :
    (ofNfa n alphabet).next? q a = some r ↔
      a ∈ alphabet ∧ (n.step s a).isEmpty = false ∧
        (ofNfa n alphabet).subset? r = some (n.step s a) := by
  constructor
  · exact fun h => mem_moves_ofNfa hn hq (mem_moves_of_next? h)
  · rintro ⟨ha, hne, hr⟩
    -- there is a move, and its target stands for the same set
    obtain ⟨r', hr'⟩ := exists_next?_ofNfa hn hq ha hne
    obtain ⟨-, -, hsubset⟩ := mem_moves_ofNfa hn hq (mem_moves_of_next? hr')
    rw [subset?_ofNfa_inj hr hsubset]
    exact hr'

theorem mem_accepting_ofNfa (hq : (ofNfa n alphabet).subset? q = some s) :
    q ∈ (ofNfa n alphabet).accepting ↔ n.finish ∈ s := by
  obtain ⟨i, rfl, hi⟩ := subset?_ofNfa_eq_some_iff.mp hq
  rw [ofNfa]
  simp only [SortedSet.mem_ofList, List.mem_map, List.mem_filter, decide_eq_true_eq]
  constructor
  · rintro ⟨⟨j, t⟩, ⟨⟨⟨u, k⟩, hmem, hjt⟩, hfinish⟩, rfl⟩
    rw [List.mem_zipIdx_iff_getElem?, Array.getElem?_toList] at hmem
    obtain ⟨hk, rfl⟩ := Prod.mk.inj hjt
    obtain rfl : k = i := by
      have : (k : Int) = i := hk
      omega
    rwa [Option.some_inj.mp (hi.symm.trans hmem)]
  · intro hfinish
    refine ⟨(i, s), ⟨⟨(s, i), ?_, rfl⟩, hfinish⟩, rfl⟩
    rw [List.mem_zipIdx_iff_getElem?, Array.getElem?_toList]
    exact hi

/-! ### The order of the moves -/

theorem Move.Precedes.not_same {m k : Move} (h : m.Precedes k) :
    ¬(m.source = k.source ∧ m.symbol = k.symbol) := by
  rintro ⟨hsource, hsymbol⟩
  rcases h with h | ⟨-, h⟩
  · omega
  · rw [hsymbol, Std.ReflOrd.compare_self] at h
    cases h

/-- Among moves in ascending order there is no second one from the same state on the same symbol. -/
theorem Move.filter_eq_singleton {moves : List Move} (h : moves.Pairwise Move.Precedes) {m : Move}
    (hm : m ∈ moves) :
    (moves.filter fun k => k.source = m.source ∧ k.symbol = m.symbol) = [m] := by
  induction moves with
  | nil => exact absurd hm List.not_mem_nil
  | cons k rest ih =>
    rw [List.pairwise_cons] at h
    rcases List.mem_cons.mp hm with rfl | hm
    · rw [List.filter_cons_of_pos (by simp), List.filter_eq_nil_iff.mpr]
      intro k hk hsame
      exact (h.1 k hk).not_same ((of_decide_eq_true hsame).imp Eq.symm Eq.symm)
    · rw [List.filter_cons_of_neg (by simpa using not_and.mp (h.1 m hm).not_same), ih h.2 hm]

theorem ascending_ofNfa (hn : n.WellFormed) (alphabet : Alphabet) :
    (ofNfa n alphabet).moves.Pairwise Move.Precedes :=
  (Subsets.inOrder_complete hn alphabet.ascending).ascending

/-- Every move can be taken. -/
theorem next?_ofNfa_iff_mem (hn : n.WellFormed) :
    (ofNfa n alphabet).next? q a = some r ↔ ⟨q, a, r⟩ ∈ (ofNfa n alphabet).moves := by
  constructor
  · exact mem_moves_of_next?
  · intro hm
    obtain ⟨r', hr'⟩ := exists_next?_of_mem hm
    -- the move that is found first is the only one with its source and symbol
    have hfirst := Move.filter_eq_singleton (ascending_ofNfa hn alphabet) (mem_moves_of_next? hr')
    rw [Move.filter_eq_singleton (ascending_ofNfa hn alphabet) hm, List.singleton_inj] at hfirst
    have htarget : r = r' := congrArg Move.target hfirst
    rw [htarget]
    exact hr'

/-- Moves are from states that stand for sets, on symbols of the alphabet. -/
theorem exists_subset?_source (hn : n.WellFormed) {m : Move}
    (hm : m ∈ (ofNfa n alphabet).moves) :
    m.symbol ∈ alphabet ∧ ∃ s, (ofNfa n alphabet).subset? m.source = some s := by
  obtain ⟨i, j, s, hij, hknown, hi, -, -⟩ :=
    (Subsets.invariant_complete hn alphabet.toList).sound m (Array.mem_toList_iff.mp hm)
  exact ⟨hknown.2, s, subset?_ofNfa_eq_some_iff.mpr ⟨i, congrArg Move.source hij, hi⟩⟩

/-- A state other than the start was found by a move from an earlier one. -/
theorem exists_move_of_lt (hn : n.WellFormed) (hpos : 0 < q) (hq : q < (ofNfa n alphabet).states) :
    ∃ m ∈ (ofNfa n alphabet).moves, m.target = q ∧ 0 ≤ m.source ∧ m.source < q := by
  obtain ⟨i, rfl⟩ := Int.eq_ofNat_of_zero_le hpos.le
  have hsize : i < (Subsets.complete n alphabet.toList).found.size := Int.ofNat_lt.mp hq
  obtain ⟨p, hp, a, hm⟩ :=
    (Subsets.invariant_complete hn alphabet.toList).origin i hsize (by omega)
  refine ⟨⟨p, a, i⟩, Array.mem_toList_iff.mpr hm, rfl, ?_, ?_⟩
  · exact Int.natCast_nonneg p
  · exact Int.ofNat_lt.mpr hp

/-- Before a move leads to a state, moves have led to all states with lower numbers. -/
theorem exists_precedes_ofNfa (hn : n.WellFormed) {m : Move}
    (hm : m ∈ (ofNfa n alphabet).moves) (hpos : 0 < q) (hq : q < m.target) :
    ∃ k ∈ (ofNfa n alphabet).moves, k.target = q ∧ k.Precedes m := by
  obtain ⟨i, rfl⟩ := Int.eq_ofNat_of_zero_le hpos.le
  obtain ⟨k, hk, htarget, hkm⟩ := (Subsets.inOrder_complete hn alphabet.ascending).earlier m
    (Array.mem_toList_iff.mp hm) i (by omega) hq
  exact ⟨k, Array.mem_toList_iff.mpr hk, htarget, hkm⟩

end RegexAutomata.Dfa
