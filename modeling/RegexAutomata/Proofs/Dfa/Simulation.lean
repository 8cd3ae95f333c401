/-
The deterministic automaton runs like the nondeterministic one.

As long as the deterministic automaton has moves, its state stands for the set that the
nondeterministic run is in (`subset?_pathEnd`). It has no move as soon as this set gets empty or a
code point is no symbol of its alphabet (`le_length_path_iff`).

* `accepted_traceFrom_iff` — what is accepted from a state;
* `accepts_ofNfa` — the two automata accept the same texts, and their runs agree on the way,
  whatever operations built the nondeterministic one.
-/
import RegexAutomata.Dfa.Trace
import RegexAutomata.Proofs.Dfa.OfNfa
import RegexAutomata.Proofs.Nfa.Operation
import RegexAutomata.Proofs.Nfa.Path

namespace RegexAutomata.Dfa

/-- The state that a path leads to from a state. -/
def pathEnd (q : Int) : List Move → Int
  | [] => q
  | m :: rest => pathEnd m.target rest

/-! ### Traces -/

section Trace

variable {d : Dfa} {q r : Int} {c : CodePoint} (position : Nat) (w : Text)

theorem accepted_traceFrom_nil (d : Dfa) (q : Int) (position : Nat) :
    (d.traceFrom q position []).accepted = true ↔ q ∈ d.accepting := by
  rw [traceFrom]
  by_cases hq : q ∈ d.accepting
  · simp [hq, Trace.accepted]
  · simp [hq, Trace.accepted]

theorem path_traceFrom_nil (d : Dfa) (q : Int) (position : Nat) :
    (d.traceFrom q position []).path = [] := by
  rw [traceFrom]
  by_cases hq : q ∈ d.accepting
  · rw [if_pos hq]
  · rw [if_neg hq]

theorem traceFrom_cons_of_some (h : d.next? q [c] = some r) :
    d.traceFrom q position (c :: w) = .cons ⟨q, [c], r⟩ (d.traceFrom r (position + 1) w) := by
  rw [traceFrom, h]

theorem path_traceFrom_cons_of_none (h : d.next? q [c] = none) :
    (d.traceFrom q position (c :: w)).path = [] := by
  rw [traceFrom, h]

theorem accepted_traceFrom_cons_of_none (h : d.next? q [c] = none) :
    (d.traceFrom q position (c :: w)).accepted = false := by
  rw [traceFrom, h]
  rfl

/-- A rejected text is rejected where its path ends. -/
theorem rejection_traceFrom (d : Dfa) (q : Int) (position : Nat) (w : Text) :
    (d.traceFrom q position w).accepted = true ∨ ∃ cause,
      (d.traceFrom q position w).rejection =
        some (cause, position + (d.traceFrom q position w).path.length) := by
  induction w generalizing q position with
  | nil =>
    rw [traceFrom]
    by_cases hq : q ∈ d.accepting
    · exact .inl (by simp [hq, Trace.accepted])
    · exact .inr ⟨.notAccepting q, by simp [hq]⟩
  | cons c w ih =>
    cases hnext : d.next? q [c] with
    | none =>
      rw [traceFrom, hnext]
      exact .inr ⟨_, rfl⟩
    | some r =>
      rw [traceFrom_cons_of_some position w hnext]
      rcases ih r (position + 1) with h | ⟨cause, h⟩
      · exact .inl h
      · refine .inr ⟨cause, h.trans ?_⟩
        rw [Trace.cons, List.length_cons, Nat.add_assoc, Nat.add_comm 1]

end Trace

/-! ### Both automata -/

section Simulation

variable {n : Nfa} {alphabet : Alphabet} {s : StateSet} {q : Int}

/-- A symbol of the alphabet on which a state has no move leads nowhere. -/
theorem step_eq_empty (hn : n.WellFormed) (hq : (ofNfa n alphabet).subset? q = some s)
    {a : Symbol} (ha : a ∈ alphabet) (h : (ofNfa n alphabet).next? q a = none) :
    n.step s a = ∅ := by
  rw [← SortedSet.isEmpty_iff]
  by_contra hne
  rw [Bool.not_eq_true] at hne
  obtain ⟨r, hr⟩ := exists_next?_ofNfa hn hq ha hne
  rw [h] at hr
  cases hr

/-- What is accepted from a state of the deterministic automaton. -/
theorem accepted_traceFrom_iff (hn : n.WellFormed) (hq : (ofNfa n alphabet).subset? q = some s)
    (position : Nat) (w : Text) :
    ((ofNfa n alphabet).traceFrom q position w).accepted = true ↔
      n.finish ∈ n.stepAll s w ∧ ∀ c ∈ w, [c] ∈ alphabet := by
  induction w generalizing q s position with
  | nil =>
    rw [accepted_traceFrom_nil, mem_accepting_ofNfa hq]
    simp [Nfa.stepAll]
  | cons c w ih =>
    have hstep : n.stepAll s (c :: w) = n.stepAll (n.step s [c]) w := rfl
    rw [hstep, List.forall_mem_cons]
    cases hnext : (ofNfa n alphabet).next? q [c] with
    -- the run would have to go on from no state at all
    | none =>
      rw [accepted_traceFrom_cons_of_none position w hnext]
      constructor
      · rintro ⟨⟩
      · rintro ⟨hfinish, hc, -⟩
        rw [step_eq_empty hn hq hc hnext, Nfa.stepAll_empty] at hfinish
        exact absurd hfinish (SortedSet.not_mem_empty _)
    | some r =>
      obtain ⟨hc, -, hr⟩ := (next?_ofNfa_eq_some_iff hn hq).mp hnext
      rw [traceFrom_cons_of_some position w hnext]
      exact (ih hr (position + 1)).trans (and_congr_right' (and_iff_right hc).symm)

/-- The state after some moves stands for the set that the nondeterministic run is in. -/
theorem subset?_pathEnd (hn : n.WellFormed) (hq : (ofNfa n alphabet).subset? q = some s)
    (position : Nat) (w : Text) {i : Nat}
    (hi : i ≤ ((ofNfa n alphabet).traceFrom q position w).path.length) :
    (ofNfa n alphabet).subset?
        (pathEnd q (((ofNfa n alphabet).traceFrom q position w).path.take i)) =
      some (n.stepAll s (w.take i)) := by
  induction i generalizing q s position w with
  | zero => exact hq
  | succ i ih =>
    cases w with
    | nil =>
      rw [path_traceFrom_nil] at hi
      simp at hi
    | cons c w =>
      cases hnext : (ofNfa n alphabet).next? q [c] with
      | none =>
        rw [path_traceFrom_cons_of_none position w hnext] at hi
        simp at hi
      | some r =>
        obtain ⟨-, -, hr⟩ := (next?_ofNfa_eq_some_iff hn hq).mp hnext
        rw [traceFrom_cons_of_some position w hnext] at hi ⊢
        exact ih hr (position + 1) w (Nat.le_of_succ_le_succ hi)

/-- The deterministic automaton reads a first part of a text if its code points are symbols and the
nondeterministic run is still in some state. -/
theorem le_length_path_iff (hn : n.WellFormed) (hq : (ofNfa n alphabet).subset? q = some s)
    (hs : s.isEmpty = false) (position : Nat) (w : Text) (i : Nat) :
    i ≤ ((ofNfa n alphabet).traceFrom q position w).path.length ↔
      i ≤ w.length ∧ (∀ c ∈ w.take i, [c] ∈ alphabet) ∧
        (n.stepAll s (w.take i)).isEmpty = false := by
  induction i generalizing q s position w with
  | zero => simpa [Nfa.stepAll] using hs
  | succ i ih =>
    cases w with
    | nil => simp [path_traceFrom_nil]
    | cons c w =>
      have hstep : n.stepAll s ((c :: w).take (i + 1)) = n.stepAll (n.step s [c]) (w.take i) := rfl
      rw [hstep, List.take_succ_cons, List.forall_mem_cons, List.length_cons, Nat.succ_le_succ_iff]
      cases hnext : (ofNfa n alphabet).next? q [c] with
      -- without a move the code point is no symbol, or it leads nowhere
      | none =>
        rw [path_traceFrom_cons_of_none position w hnext]
        constructor
        · intro h
          simp at h
        · rintro ⟨-, ⟨hc, -⟩, hne⟩
          rw [step_eq_empty hn hq hc hnext, Nfa.stepAll_empty] at hne
          cases hne
      | some r =>
        obtain ⟨hc, hne, hr⟩ := (next?_ofNfa_eq_some_iff hn hq).mp hnext
        rw [traceFrom_cons_of_some position w hnext, Trace.cons, List.length_cons,
          Nat.succ_le_succ_iff, ih hr hne]
        simp only [hc, true_and]

end Simulation

/-- The automaton of the subset construction accepts what the nondeterministic one accepts, as far
as it is written with symbols of its alphabet; for the alphabet of the nondeterministic automaton
itself this is no restriction. After every part of the text that it reads, its state stands for the
set from which the nondeterministic run goes on. -/
theorem accepts_ofNfa (alphabet symbols : Alphabet) (ops : List Nfa.Operation) (w : Text) :
    let n := Nfa.Operation.after (.empty alphabet) ops
    ((ofNfa n symbols).accepts w = true ↔ n.accepts w = true ∧ ∀ c ∈ w, [c] ∈ symbols) ∧
      (∀ i ≤ ((ofNfa n symbols).trace w).path.length,
        (ofNfa n symbols).subset? (pathEnd start (((ofNfa n symbols).trace w).path.take i)) =
            some (n.statesAfter (w.take i)) ∧
          n.accepts w = n.acceptsFrom (n.statesAfter (w.take i)) (w.drop i)) ∧
      (ofNfa n n.alphabet).accepts w = n.accepts w := by
  intro n
  obtain ⟨hn, hlabels⟩ := Nfa.sound_after alphabet ops
  have haccepts (symbols : Alphabet) :
      (ofNfa n symbols).accepts w = true ↔ n.accepts w = true ∧ ∀ c ∈ w, [c] ∈ symbols := by
    rw [Nfa.accepts_iff_mem_statesAfter]
    exact accepted_traceFrom_iff hn (subset?_ofNfa_start hn symbols) 0 w
  -- on its own alphabet nothing is lost, since an accepted text is written with known symbols
  refine ⟨haccepts symbols, fun i hi => ⟨?_, ?_⟩, ?_⟩
  · exact subset?_pathEnd hn (subset?_ofNfa_start hn symbols) 0 w hi
  · conv_lhs => rw [Nfa.accepts, ← List.take_append_drop i w, Nfa.acceptsFrom_append]
    rfl
  · rw [Bool.eq_iff_iff, haccepts]
    exact and_iff_left_of_imp fun h => ((Nfa.accepts_iff_path hn w).mp h).mem_alphabet hlabels

end RegexAutomata.Dfa
