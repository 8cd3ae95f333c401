/-
The order in which the subset construction finds states and moves.

A queue of states is in turn if, read from the left, each number is an old one or the next new one.
So the states are processed in the order of their numbers, and since each is processed once and for
the symbols in ascending order, the moves are found in ascending order too.

* `Subsets.InTurn` — queues in turn, and what holds after taking from one and adding to one;
* `Subsets.InOrder.push`, `Subsets.InOrder.step` — each step keeps the order;
* `Subsets.inOrder_run` — so at any time the first states are processed, and no others;
* `Subsets.inOrder_complete` — and at the end all of them.
-/
import RegexAutomata.Proofs.Dfa.Subsets

namespace RegexAutomata.Dfa

/-- Moves are ordered by source, then by symbol. -/
def Move.Precedes (m k : Move) : Prop :=
  m.source < k.source ∨ (m.source = k.source ∧ compare m.symbol k.symbol = .lt)

namespace Subsets

variable {n : Nfa} {known : Nat → Symbol → Prop} {b b' : Subsets} {s : StateSet} {q r : Nat}
  {a : Symbol}

/-! ### Queues -/

/-- Read from left to right, each number of a list is below a bound, or it is the bound, which then
goes up by one. -/
inductive InTurn : Nat → List Nat → Nat → Prop where
  | nil (k : Nat) : InTurn k [] k
  | old {k m q : Nat} {l : List Nat} : q < k → InTurn k l m → InTurn k (q :: l) m
  | next {k m : Nat} {l : List Nat} : InTurn (k + 1) l m → InTurn k (k :: l) m

namespace InTurn

variable {j k m : Nat} {l l' : List Nat}

theorem le (h : InTurn k l m) : k ≤ m := by
  induction h with
  | nil => exact Nat.le_refl _
  | old _ _ ih => exact ih
  | next _ ih => omega

theorem append (h : InTurn j l k) (h' : InTurn k l' m) : InTurn j (l ++ l') m := by
  induction h with
  | nil => exact h'
  | old hq _ ih => exact .old hq (ih h')
  | next _ ih => exact .next (ih h')

/-- A number that was there before can be added at the end. -/
theorem append_old (h : InTurn j l k) (hq : q < k) : InTurn j (l ++ [q]) k :=
  h.append (.old hq (.nil k))

theorem append_next (h : InTurn j l k) : InTurn j (l ++ [k]) (k + 1) := h.append (.next (.nil _))

/-- The first number of a list is below the bound, or it is the bound. -/
theorem of_cons (h : InTurn k (q :: l) m) :
    (q < k ∧ InTurn k l m) ∨ (q = k ∧ InTurn (k + 1) l m) := by
  cases h with
  | old hq h => exact .inl ⟨hq, h⟩
  | next h => exact .inr ⟨rfl, h⟩

end InTurn

/-! ### One move -/

/-- What holds of the order in which states and moves are found, when a number of states have been
processed. -/
structure InOrder (done : Nat) (b : Subsets) : Prop where
  processed_iff : ∀ q, q ∈ b.processed ↔ q < done
  queue : InTurn done b.queue b.found.size
  source_lt : ∀ m ∈ b.moves, m.source < done
  ascending : b.moves.toList.Pairwise Move.Precedes
  /-- before a move leads to a state, moves have led to all states with lower numbers -/
  earlier : ∀ m ∈ b.moves, ∀ q : Nat, 0 < q → (q : Int) < m.target →
    ∃ k ∈ b.moves, k.target = q ∧ k.Precedes m

/-- A set that is numbered was found before, or it gets the next number. -/
theorem Numbers.size_found (h : b.Numbers s r b') :
    (r < b.found.size ∧ b'.found.size = b.found.size) ∨
      (r = b.found.size ∧ b'.found.size = b.found.size + 1) := by
  have hr : r < b'.found.size := (Array.getElem?_eq_some_iff.mp h.found).1
  have hle : b.found.size ≤ b'.found.size := by
    by_contra hlt
    have := h.lt_size (p := b'.found.size) (by omega)
    omega
  -- a place that is not the set's own was there before
  have hlast := h.lt_or_eq (p := b'.found.size - 1) (by omega)
  rcases h.lt_or_eq hr with hold | ⟨-, hnew⟩
  · exact .inl ⟨hold, by omega⟩
  · exact .inr ⟨hnew, by omega⟩

/-- What adding a move does: nothing if the symbol leads nowhere, and else the set that it leads to
gets a number. -/
theorem addMove_cases (h : b.Numbered) (q : Nat) (s : StateSet) (a : Symbol) :
    addMove n q s b a = b ∨ ∃ r b', b.Numbers (n.step s a) r b' ∧ addMove n q s b a =
      { b' with queue := b'.queue ++ [r], moves := b'.moves.push ⟨q, a, r⟩ } := by
  rw [addMove]
  by_cases hempty : (n.step s a).isEmpty = true
  · exact .inl (by simp only [hempty, ↓reduceIte])
  · refine .inr ⟨_, _, numbers_number h (n.step s a), ?_⟩
    rw [Bool.not_eq_true] at hempty
    simp only [hempty, Bool.false_eq_true, ↓reduceIte]

namespace InOrder

variable {done : Nat}

/-- Before a move leads to a state, moves have led to all states with lower numbers: a set that is
new gets the next number. -/
theorem push_earlier (h : b.InOrder done) (hinv : b.Invariant n known) (hnum : b.Numbers s r b')
    (hlast : ∀ m ∈ b.moves, m.Precedes ⟨q, a, r⟩) {m : Move}
    (hm : m ∈ b'.moves.push ⟨q, a, r⟩) {p : Nat} (hp : 0 < p) (hlt : (p : Int) < m.target) :
    ∃ k ∈ b'.moves.push ⟨q, a, r⟩, k.target = p ∧ k.Precedes m := by
  rw [hnum.moves_eq] at hm ⊢
  rcases Array.mem_push.mp hm with hm | rfl
  · obtain ⟨k, hk, htarget, hkm⟩ := h.earlier m hm p hp hlt
    exact ⟨k, Array.mem_push.mpr (.inl hk), htarget, hkm⟩
  · have hfound : p < b.found.size := by
      have : (p : Int) < r := hlt
      rcases hnum.size_found with hr | hr <;> omega
    obtain ⟨o, -, c, hk⟩ := hinv.origin p hfound (by omega)
    exact ⟨_, Array.mem_push.mpr (.inl hk), rfl, hlast _ hk⟩

/-- A move after all moves that were found before. -/
theorem push (h : b.InOrder done) (hinv : b.Invariant n known) (hq : q < done)
    (hnum : b.Numbers s r b') (hlast : ∀ m ∈ b.moves, m.Precedes ⟨q, a, r⟩) :
    InOrder done { b' with queue := b'.queue ++ [r], moves := b'.moves.push ⟨q, a, r⟩ } where
  processed_iff p := by
    rw [hnum.processed_eq]
    exact h.processed_iff p
  queue := by
    show InTurn done (b'.queue ++ [r]) b'.found.size
    rw [hnum.queue_eq]
    rcases hnum.size_found with ⟨hr, hsize⟩ | ⟨hr, hsize⟩
    · rw [hsize]
      exact h.queue.append_old hr
    · rw [hsize, hr]
      exact h.queue.append_next
  source_lt m hm := by
    rcases Array.mem_push.mp hm with hm | rfl
    · exact h.source_lt m (hnum.moves_eq ▸ hm)
    · show (q : Int) < done
      omega
  ascending := by
    show (b'.moves.push ⟨q, a, r⟩).toList.Pairwise Move.Precedes
    rw [hnum.moves_eq, Array.toList_push, List.pairwise_append]
    refine ⟨h.ascending, List.pairwise_singleton _ _, ?_⟩
    intro m hm k hk
    obtain rfl := List.mem_singleton.mp hk
    exact hlast m (Array.mem_toList_iff.mp hm)
  earlier m hm p hp hlt := h.push_earlier hinv hnum hlast hm hp hlt

/-! ### All moves of a state -/

/-- The moves of a state on symbols in ascending order, where all moves so far come before them. -/
theorem foldl {symbols : List Symbol} (hsorted : symbols.Pairwise fun a c => compare a c = .lt)
    (h : b.InOrder done) (hinv : b.Invariant n known) (hfound : b.found[q]? = some s)
    (hq : q < done) (hahead : ∀ m ∈ b.moves, ∀ a ∈ symbols, ∀ r, m.Precedes ⟨q, a, r⟩) :
    InOrder done (symbols.foldl (addMove n q s) b) := by
  induction symbols generalizing b known with
  | nil => exact h
  | cons a rest ih =>
    rw [List.pairwise_cons] at hsorted
    have hadds := adds_addMove hinv hfound a
    have hfirst : InOrder done (addMove n q s b a) ∧
        ∀ m ∈ (addMove n q s b a).moves, ∀ c ∈ rest, ∀ r, m.Precedes ⟨q, c, r⟩ := by
      rcases addMove_cases hinv.numbered q s a with heq | ⟨r, b', hnum, heq⟩
      · rw [heq]
        exact ⟨h, fun m hm c hc => hahead m hm c (List.mem_cons_of_mem a hc)⟩
      · rw [heq]
        refine ⟨h.push hinv hq hnum fun m hm => hahead m hm a List.mem_cons_self r, ?_⟩
        intro m hm c hc p
        rcases Array.mem_push.mp hm with hm | rfl
        · exact hahead m (hnum.moves_eq ▸ hm) c (List.mem_cons_of_mem a hc) p
        -- the move just added is on a symbol before those that are left
        · exact .inr ⟨rfl, hsorted.1 c hc⟩
    exact ih hsorted.2 hfirst.1 hadds.invariant hadds.found hfirst.2

/-! ### Steps -/

variable {symbols : List Symbol}

theorem initial (n : Nfa) : InOrder 0 (initial n) where
  processed_iff q := by
    constructor
    · exact fun hq => absurd hq Std.TreeSet.not_mem_emptyc
    · exact fun hq => absurd hq q.not_lt_zero
  queue := .next (.nil 1)
  source_lt m hm := absurd hm (Array.not_mem_empty m)
  ascending := .nil
  earlier m hm := absurd hm (Array.not_mem_empty m)

/-- A state that was processed before is dropped. -/
theorem dropProcessed {queue : List Nat} (h : b.InOrder done) (hqueue : b.queue = q :: queue)
    (hq : q ∈ b.processed) : InOrder done { b with queue } where
  processed_iff := h.processed_iff
  queue := by
    have hturn := h.queue
    rw [hqueue] at hturn
    rcases hturn.of_cons with ⟨-, hturn⟩ | ⟨hdone, -⟩
    · exact hturn
    · have := (h.processed_iff q).mp hq
      omega
  source_lt := h.source_lt
  ascending := h.ascending
  earlier := h.earlier

/-- A state that was not processed before is the first of these. -/
theorem eq_done {queue : List Nat} (h : b.InOrder done) (hqueue : b.queue = q :: queue)
    (hq : q ∉ b.processed) : q = done ∧ InTurn (done + 1) queue b.found.size := by
  have hturn := h.queue
  rw [hqueue] at hturn
  rcases hturn.of_cons with ⟨hlt, -⟩ | hnext
  · exact absurd ((h.processed_iff q).mpr hlt) hq
  · exact hnext

theorem take {queue : List Nat} (h : b.InOrder done) (hqueue : b.queue = q :: queue)
    (hq : q ∉ b.processed) :
    InOrder (done + 1) { b with queue, processed := b.processed.insert q } where
  processed_iff p := by
    obtain ⟨rfl, -⟩ := h.eq_done hqueue hq
    rw [Std.TreeSet.mem_insert, Std.LawfulEqCmp.compare_eq_iff_eq, h.processed_iff]
    omega
  queue := (h.eq_done hqueue hq).2
  source_lt m hm := by
    have := h.source_lt m hm
    omega
  ascending := h.ascending
  earlier := h.earlier

/-- A step processes the next state, or none. -/
theorem step (hsorted : symbols.Pairwise fun a c => compare a c = .lt) (h : b.InOrder done)
    (hinv : b.Invariant n known) (hstep : Subsets.step n symbols b = some b') :
    b'.InOrder done ∨ b'.InOrder (done + 1) := by
  obtain ⟨q, queue, hqueue, ⟨hq, rfl⟩ | ⟨hq, s, hs, rfl⟩⟩ := step_eq_some hinv hstep
  · exact .inl (h.dropProcessed hqueue hq)
  · obtain ⟨rfl, -⟩ := h.eq_done hqueue hq
    refine .inr ((h.take hqueue hq).foldl hsorted (hinv.take hqueue) hs q.lt_succ_self ?_)
    -- all moves so far are moves of the states that were processed before
    intro m hm a _ r
    exact .inl (h.source_lt m hm)

end InOrder

/-! ### The whole construction -/

variable {symbols : List Symbol}

/-- Any number of steps keep the order. -/
theorem InOrder.run (hsorted : symbols.Pairwise fun a c => compare a c = .lt) {done : Nat}
    (h : b.InOrder done) (hinv : b.Invariant n (Known symbols b)) (fuel : Nat) :
    ∃ done', (Subsets.run n symbols fuel b).InOrder done' := by
  induction fuel generalizing b done with
  | zero => exact ⟨done, h⟩
  | succ fuel ih =>
    rw [Subsets.run]
    cases hstep : Subsets.step n symbols b with
    | none => exact ⟨done, h⟩
    | some b' =>
      have hinv' := (hinv.step hstep).1
      rcases h.step hsorted hinv hstep with h' | h'
      · exact ih h' hinv'
      · exact ih h' hinv'

/-- At any time of the construction the first states are processed, and no others. -/
theorem inOrder_run (n : Nfa) (hsorted : symbols.Pairwise fun a c => compare a c = .lt)
    (fuel : Nat) : ∃ done, (run n symbols fuel (initial n)).InOrder done :=
  (InOrder.initial n).run hsorted (Invariant.initial_known n symbols) fuel

/-- When the construction ends, all states are processed. -/
theorem inOrder_complete (hn : n.WellFormed)
    (hsorted : symbols.Pairwise fun a c => compare a c = .lt) :
    (complete n symbols).InOrder (complete n symbols).found.size := by
  obtain ⟨done, h⟩ := inOrder_run n hsorted (Nat.pow 2 n.size * symbols.length + 2)
  have hqueue : InTurn done (complete n symbols).queue (complete n symbols).found.size := h.queue
  rw [(run_complete hn symbols).2] at hqueue
  have hdone : done = (complete n symbols).found.size := by
    cases hqueue
    rfl
  rw [← hdone]
  exact h

end Subsets

end RegexAutomata.Dfa
