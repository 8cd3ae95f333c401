/-
How many turns the subset construction takes.

Each step takes one state from the queue. It may be a state whose moves are known, since a state is
put into the queue again for every move that leads to it. So it is the moves that pay for the steps:
the steps made and the states that still wait are one more than the moves that were found.

* `Subsets.takes_step` — what a step takes from the queue, and what it adds to it;
* `Subsets.length_queue_after` — so the steps are counted by the moves;
* `Subsets.existsUnique_passes` — every set that is found has exactly one turn at which its moves are
  not known yet;
* `Subsets.Invariant.size_found_le_max` — and there are at most as many sets as there are non-empty
  ones, unless the start is no state;
* `turns_ofNfa` — all of this for the automaton of any operations.
-/
import RegexAutomata.Proofs.Dfa.Completion
import RegexAutomata.Proofs.Dfa.OfNfa
import RegexAutomata.Proofs.Nfa.Operation
import Mathlib.Algebra.Order.Ring.Int
import Mathlib.Data.Nat.Cast.Order.Ring

namespace RegexAutomata.Dfa

namespace Subsets

variable {n : Nfa} {known : Nat → Symbol → Prop} {symbols : List Symbol} {b b' : Subsets}
  {s : StateSet} {p q : Nat}

/-! ### One step -/

/-- Moves are added together with their targets: the queue gets longer by a state for each move. -/
structure Extends (b b' : Subsets) : Prop where
  queue : ∃ added, b'.queue = b.queue ++ added ∧ b'.moves.size = b.moves.size + added.length
  found_of : ∀ {p : Nat} {t : StateSet}, b.found[p]? = some t → b'.found[p]? = some t

theorem Extends.refl (b : Subsets) : b.Extends b := ⟨⟨[], by simp, rfl⟩, id⟩

theorem Extends.trans {c : Subsets} (h : b.Extends b') (h' : b'.Extends c) : b.Extends c := by
  obtain ⟨added, hqueue, hmoves⟩ := h.queue
  obtain ⟨added', hqueue', hmoves'⟩ := h'.queue
  refine ⟨⟨added ++ added', ?_, ?_⟩, fun ht => h'.found_of (h.found_of ht)⟩
  · rw [hqueue', hqueue, List.append_assoc]
  · rw [hmoves', hmoves, List.length_append, Nat.add_assoc]

theorem extends_addMove (h : b.Numbered) (q : Nat) (s : StateSet) (a : Symbol) :
    b.Extends (addMove n q s b a) := by
  rcases addMove_cases (n := n) h q s a with heq | ⟨r, b', hnum, heq⟩
  · rw [heq]
    exact .refl b
  · rw [heq]
    refine ⟨⟨[r], ?_, ?_⟩, hnum.found_of⟩
    · rw [hnum.queue_eq]
    · rw [Array.size_push, hnum.moves_eq, List.length_singleton]

theorem extends_foldl (h : b.Invariant n known) (hq : b.found[q]? = some s)
    (symbols : List Symbol) : b.Extends (symbols.foldl (addMove n q s) b) := by
  induction symbols generalizing b known with
  | nil => exact .refl b
  | cons a rest ih =>
    have hfirst := adds_addMove h hq a
    exact (extends_addMove h.numbered q s a).trans (ih hfirst.invariant hfirst.found)

/-- What a step does that takes a state from the queue. Afterwards the moves of the state are known,
if they were not known before. -/
structure Takes (b : Subsets) (q : Nat) (b' : Subsets) : Prop where
  queue : ∃ rest added, b.queue = q :: rest ∧ b'.queue = rest ++ added ∧
    b'.moves.size = b.moves.size + added.length
  processed_iff : ∀ p, p ∈ b'.processed ↔ p = q ∨ p ∈ b.processed
  found_of : ∀ {p : Nat} {t : StateSet}, b.found[p]? = some t → b'.found[p]? = some t

/-- Every step takes a state from the queue. -/
theorem takes_step (h : b.Invariant n known) (hstep : step n symbols b = some b') :
    ∃ q, b.Takes q b' := by
  obtain ⟨q, queue, hqueue, ⟨hq, rfl⟩ | ⟨hq, s, hs, rfl⟩⟩ := step_eq_some h hstep
  · refine ⟨q, ⟨queue, [], hqueue, by simp, rfl⟩, ?_, id⟩
    intro p
    constructor
    · exact .inr
    · rintro (rfl | hp)
      · exact hq
      · exact hp
  · have hextends := extends_foldl (h.take hqueue) hs symbols
    obtain ⟨added, hadded, hmoves⟩ := hextends.queue
    refine ⟨q, ⟨queue, added, hqueue, hadded, hmoves⟩, ?_, hextends.found_of⟩
    intro p
    rw [(adds_foldl (h.take hqueue) hs symbols).processed_eq, Std.TreeSet.mem_insert,
      Std.LawfulEqCmp.compare_eq_iff_eq, eq_comm]

/-! ### Any number of steps -/

/-- The construction after a number of steps, of which none is made when the queue is empty. -/
abbrev after (n : Nfa) (symbols : List Symbol) (i : Nat) : Subsets := run n symbols i (initial n)

theorem after_succ (n : Nfa) (symbols : List Symbol) (i : Nat) :
    after n symbols (i + 1) =
      (step n symbols (after n symbols i)).getD (after n symbols i) := by
  rw [after, run_add, run]
  cases step n symbols (run n symbols i (initial n)) <;> rfl

theorem invariant_after (n : Nfa) (symbols : List Symbol) (i : Nat) :
    (after n symbols i).Invariant n (Known symbols (after n symbols i)) :=
  (Invariant.initial_known n symbols).run i

/-- As long as the queue is not empty, a step takes a state from it. -/
theorem takes_after {i : Nat} (h : (after n symbols i).queue ≠ []) :
    ∃ q, (after n symbols i).Takes q (after n symbols (i + 1)) := by
  rw [after_succ]
  cases hstep : step n symbols (after n symbols i) with
  | none => exact absurd (queue_eq_nil_of_step hstep) h
  | some b' => exact takes_step (invariant_after n symbols i) hstep

theorem after_succ_of_queue_eq_nil {i : Nat} (h : (after n symbols i).queue = []) :
    after n symbols (i + 1) = after n symbols i := by
  rw [after_succ, step_of_queue_eq_nil h]
  rfl

/-- What is found stays found, and what is processed stays processed. -/
theorem after_mono {i j : Nat} (hij : i ≤ j) :
    (∀ p ∈ (after n symbols i).processed, p ∈ (after n symbols j).processed) ∧
      ∀ (p : Nat) (t : StateSet), (after n symbols i).found[p]? = some t →
        (after n symbols j).found[p]? = some t := by
  induction j, hij using Nat.le_induction with
  | base => exact ⟨fun _ => id, fun _ _ => id⟩
  | succ j _ ih =>
    by_cases hqueue : (after n symbols j).queue = []
    · rwa [after_succ_of_queue_eq_nil hqueue]
    · obtain ⟨q, htakes⟩ := takes_after hqueue
      exact ⟨fun p hp => (htakes.processed_iff p).mpr (.inr (ih.1 p hp)),
        fun p t ht => htakes.found_of (ih.2 p t ht)⟩

/-- The steps that were made and the states that wait are one more than the moves: the start has
its turn without a move. -/
theorem length_queue_after {i : Nat} (h : ∀ j < i, (after n symbols j).queue ≠ []) :
    i + (after n symbols i).queue.length = 1 + (after n symbols i).moves.size := by
  induction i with
  | zero => rfl
  | succ i ih =>
    have hbefore := ih fun j hj => h j (by omega)
    obtain ⟨q, htakes⟩ := takes_after (h i (by omega))
    obtain ⟨rest, added, hqueue, hqueue', hmoves⟩ := htakes.queue
    rw [hqueue, List.length_cons] at hbefore
    rw [hqueue', hmoves, List.length_append]
    omega

/-- The queue gets empty after as many steps as there are moves, and one more. -/
theorem queue_after (hn : n.WellFormed) (symbols : List Symbol) :
    (∀ i < 1 + (complete n symbols).moves.size, (after n symbols i).queue ≠ []) ∧
      after n symbols (1 + (complete n symbols).moves.size) = complete n symbols := by
  have hend : ∃ i, (after n symbols i).queue = [] := ⟨_, (run_complete hn symbols).2⟩
  classical
  obtain ⟨hempty, hbefore⟩ := And.intro (Nat.find_spec hend) fun j hj => Nat.find_min hend (m := j) hj
  -- all further steps of the construction change nothing
  have hcomplete : complete n symbols = after n symbols (Nat.find hend) := by
    obtain ⟨more, hmore⟩ := Nat.exists_eq_add_of_le
      (Nat.find_min' hend (run_complete hn symbols).2)
    rw [complete, hmore, run_add]
    exact run_of_queue_eq_nil hempty more
  have hcount := length_queue_after hbefore
  rw [hempty, List.length_nil, Nat.add_zero, ← hcomplete] at hcount
  rw [← hcount]
  exact ⟨hbefore, hcomplete.symm⟩

/-! ### One turn for each set -/

/-- It is the turn of a set whose moves are not known yet. -/
def Passes (b : Subsets) (s : StateSet) : Prop :=
  ∃ q queue, b.queue = q :: queue ∧ b.found[q]? = some s ∧ q ∉ b.processed

theorem Passes.queue_ne_nil (h : b.Passes s) : b.queue ≠ [] := by
  obtain ⟨q, queue, hqueue, -⟩ := h
  rw [hqueue]
  exact List.cons_ne_nil q queue

/-- After its turn a set is processed. -/
theorem Passes.mem_processed {i : Nat} (h : (after n symbols i).Passes s)
    (hq : (after n symbols i).found[q]? = some s) :
    q ∈ (after n symbols (i + 1)).processed := by
  obtain ⟨p, htakes⟩ := takes_after h.queue_ne_nil
  obtain ⟨r, queue, hqueue, hr, -⟩ := h
  obtain ⟨rest, added, hqueue', -⟩ := htakes.queue
  rw [hqueue, List.cons.injEq] at hqueue'
  have hnumbered := (invariant_after n symbols i).numbered
  rw [← hnumbered] at hq hr
  have hqr : q = r := Option.some_inj.mp (hq.symm.trans hr)
  exact (htakes.processed_iff q).mpr (.inl (hqr.trans hqueue'.1))

/-- A set that has passed does not pass again. -/
theorem Passes.not_passes_of_lt {i j : Nat} (h : (after n symbols i).Passes s) (hij : i < j) :
    ¬(after n symbols j).Passes s := by
  rintro ⟨r, queue, -, hr, hnot⟩
  obtain ⟨q, -, -, hq, -⟩ := id h
  have hprocessed := (after_mono hij).1 q (h.mem_processed hq)
  have hq' := (after_mono hij.le).2 q s hq
  have hnumbered := (invariant_after n symbols j).numbered
  rw [← hnumbered] at hq' hr
  rw [Option.some_inj.mp (hq'.symm.trans hr)] at hprocessed
  exact hnot hprocessed

/-- A set that is found has a turn at which it passes. -/
theorem exists_passes (hn : n.WellFormed) (hq : (complete n symbols).found[q]? = some s) :
    ∃ i, (after n symbols i).Passes s := by
  obtain ⟨hinv, hempty⟩ := run_complete hn symbols
  have hprocessed : q ∈ (complete n symbols).processed := by
    refine (hinv.pending q (Array.getElem?_eq_some_iff.mp hq).1).resolve_right ?_
    rw [hempty]
    exact List.not_mem_nil
  have hend : ∃ i, q ∈ (after n symbols i).processed := ⟨_, hprocessed⟩
  classical
  -- the step before which the state is not processed, and after which it is
  obtain ⟨i, hi⟩ : ∃ i, Nat.find hend = i + 1 := by
    refine Nat.exists_eq_succ_of_ne_zero fun hzero => ?_
    have hstart := Nat.find_spec hend
    rw [hzero] at hstart
    exact Std.TreeSet.not_mem_emptyc hstart
  have hafter : q ∈ (after n symbols (i + 1)).processed := hi ▸ Nat.find_spec hend
  have hbefore : q ∉ (after n symbols i).processed := Nat.find_min hend (by omega)
  have hqueue : (after n symbols i).queue ≠ [] := by
    intro hqueue
    rw [after_succ_of_queue_eq_nil hqueue] at hafter
    exact hbefore hafter
  obtain ⟨p, htakes⟩ := takes_after hqueue
  obtain ⟨rest, -, hrest, -⟩ := htakes.queue
  obtain rfl := ((htakes.processed_iff q).mp hafter).resolve_right hbefore
  refine ⟨i, q, rest, hrest, ?_, hbefore⟩
  -- it stood for the same set then
  have hlt := (invariant_after n symbols i).queue_lt q (hrest ▸ List.mem_cons_self)
  have hfound := Array.getElem?_eq_getElem hlt
  have hle := Nat.find_min' hend hprocessed
  have hsame := (after_mono (j := Nat.pow 2 n.size * symbols.length + 2) (by omega)).2 q _ hfound
  rw [hfound, Option.some_inj.mp (hsame.symm.trans hq)]

/-- Every set that is found passes exactly once. -/
theorem existsUnique_passes (hn : n.WellFormed) (hq : (complete n symbols).found[q]? = some s) :
    ∃! i, (after n symbols i).Passes s := by
  obtain ⟨i, hi⟩ := exists_passes hn hq
  refine ⟨i, hi, fun j hj => ?_⟩
  rcases Nat.lt_trichotomy i j with hij | rfl | hji
  · exact absurd hj (hi.not_passes_of_lt hij)
  · rfl
  · exact absurd hi (hj.not_passes_of_lt hji)

/-! ### How many sets there are -/

/-- Without a start among the states, nothing but the start is found. -/
theorem Invariant.size_found_le_one (hn : n.WellFormed) (h : b.Invariant n known)
    (hstart : ¬n.IsAllocated n.start) : b.found.size ≤ 1 := by
  by_contra hlt
  -- a second set was found by a move from the start set, and so by an edge from the start
  obtain ⟨p, hp, a, hm⟩ := h.origin 1 (by omega) Nat.one_ne_zero
  obtain rfl : p = 0 := by omega
  obtain ⟨q, r, s, hmove, -, hs, hne, -⟩ := h.sound _ hm
  obtain rfl : 0 = q := by
    have : ((0 : Nat) : Int) = q := congrArg Move.source hmove
    omega
  obtain rfl := Option.some_inj.mp (h.start.symm.trans hs)
  obtain ⟨x, hx⟩ := SortedSet.isEmpty_eq_false_iff.mp hne
  obtain ⟨y, hy, z, hedge, -⟩ := (Nfa.mem_step hn).mp hx
  rcases hn.isAllocated_of_mem_startStates hy with rfl | ⟨halloc, -⟩
  · exact hstart hedge.isAllocated
  · exact hstart halloc

/-- There are at most as many states as non-empty sets of states, but there is the start. -/
theorem Invariant.size_found_le_max (hn : n.WellFormed) (h : b.Invariant n known) :
    b.found.size ≤ max 1 (2 ^ n.size - 1) := by
  by_cases hstart : n.IsAllocated n.start
  · -- every set has a state in it
    have hmember (q : Nat) (s : StateSet) (hq : b.found[q]? = some s) :
        ∃ x ∈ s, n.IsAllocated x := by
      rcases h.eq_start_or_step hq with rfl | ⟨t, a, rfl, hne⟩
      · exact ⟨n.start, (Nfa.mem_startStates hn _).mpr .refl, hstart⟩
      · obtain ⟨x, hx⟩ := SortedSet.isEmpty_eq_false_iff.mp hne
        exact ⟨x, hx, hn.isAllocated_of_mem_step hx⟩
    have hfamily (q : Nat) (s : StateSet) (hq : b.found[q]? = some s) :
        members n s ∈ (Finset.range n.size).powerset.erase ∅ := by
      obtain ⟨x, hx, halloc⟩ := hmember q s hq
      refine Finset.mem_erase.mpr ⟨?_, members_mem_powerset n s⟩
      exact Finset.ne_empty_of_mem ((toNat_mem_members halloc).mpr hx)
    have hcard := h.size_found_le_card hn hfamily
    rw [Finset.card_erase_of_mem (Finset.empty_mem_powerset _), Finset.card_powerset,
      Finset.card_range] at hcard
    exact le_max_of_le_right hcard
  · exact le_max_of_le_left (h.size_found_le_one hn hstart)

end Subsets

/-- Whatever operations built an automaton, and whatever the symbols: the construction takes a state
from its queue at each step, and after as many steps as it has found moves, and one more, the queue
is empty. Each set that it found had exactly one turn at which its moves were not known yet, no two
moves are from the same state on the same symbol, and there are at most as many states as non-empty
sets of states, or there is only one. -/
theorem turns_ofNfa (alphabet symbols : Alphabet) (ops : List Nfa.Operation) :
    let n := Nfa.Operation.after (.empty alphabet) ops
    let d := ofNfa n symbols
    let b := Subsets.after n symbols.toList
    (∀ i < 1 + d.moves.length, ∃ q rest added,
      (b i).queue = q :: rest ∧ (b (i + 1)).queue = rest ++ added) ∧
    (b (1 + d.moves.length)).queue = [] ∧
    b (1 + d.moves.length) = Subsets.complete n symbols.toList ∧
    (d.moves.map fun m => (m.source, m.symbol)).Nodup ∧
    (∀ q s, d.subset? q = some s → ∃! i, (b i).Passes s) ∧
    d.states ≤ max 1 (2 ^ n.size - 1) := by
  intro n d b
  have hn : n.WellFormed := (Nfa.sound_after alphabet ops).wellFormed
  obtain ⟨hbefore, hend⟩ := Subsets.queue_after hn symbols.toList
  have hlength : d.moves.length = (Subsets.complete n symbols.toList).moves.size :=
    Array.length_toList
  have hqueue : (b (1 + (Subsets.complete n symbols.toList).moves.size)).queue = [] := by
    rw [show b _ = _ from hend]
    exact (Subsets.run_complete hn symbols.toList).2
  rw [hlength]
  refine ⟨?_, hqueue, hend, ?_, ?_, ?_⟩
  · intro i hi
    obtain ⟨q, htakes⟩ := Subsets.takes_after (hbefore i hi)
    obtain ⟨rest, added, hqueue, hqueue', -⟩ := htakes.queue
    exact ⟨q, rest, added, hqueue, hqueue'⟩
  · refine List.Pairwise.map _ (fun m k hmk heq => ?_) (ascending_ofNfa hn symbols)
    exact hmk.not_same (Prod.mk.inj heq)
  · intro q s hq
    obtain ⟨i, -, hi⟩ := subset?_ofNfa_eq_some_iff.mp hq
    exact Subsets.existsUnique_passes hn hi
  · have hsize := Int.ofNat_le.mpr
      ((Subsets.run_complete hn symbols.toList).1.size_found_le_max hn)
    rw [Nat.cast_max, Nat.cast_sub Nat.one_le_two_pow] at hsize
    exact_mod_cast hsize

end RegexAutomata.Dfa
