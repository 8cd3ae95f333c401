/-
The subset construction comes to its end, and then it makes no difference how many more steps it may
make.

A construction whose queue is empty stays as it is. So a construction that begins like another one
and takes the same steps comes to the same end, even if it is given more of them.

* `Subsets.run_add` — some steps, and then some more;
* `Subsets.run_eq_complete` — more steps than are needed change nothing;
* `Subsets.complete_eq_of_step_eq` — equal beginnings and equal steps give equal ends;
* `Subsets.complete_filter`, `ofNfa_pad` — symbols that lead nowhere and states without edges make
  no difference to what is found.
-/
import RegexAutomata.Proofs.Dfa.Subsets

namespace RegexAutomata

namespace Dfa

namespace Subsets

variable {n m : Nfa} {symbols : List Symbol} {b : Subsets}

theorem step_of_queue_eq_nil (h : b.queue = []) : step n symbols b = none := by
  rw [step, h]

/-- A construction with an empty queue has come to its end. -/
theorem run_of_queue_eq_nil (h : b.queue = []) (fuel : Nat) : run n symbols fuel b = b := by
  cases fuel with
  | zero => rfl
  | succ fuel => rw [run, step_of_queue_eq_nil h]

/-- Steps can be made in two parts. -/
theorem run_add (fuel more : Nat) (b : Subsets) :
    run n symbols (fuel + more) b = run n symbols more (run n symbols fuel b) := by
  induction fuel generalizing b with
  | zero => rw [Nat.zero_add, run]
  | succ fuel ih =>
    rw [Nat.succ_add, run, run]
    cases hstep : step n symbols b with
    | none =>
      -- the construction stops in the first part, and so does the second part
      show b = run n symbols more b
      rw [run_of_queue_eq_nil (queue_eq_nil_of_step hstep)]
    | some b' => exact ih b'

/-- More steps than the construction needs change nothing. -/
theorem run_eq_complete (hn : n.WellFormed) {fuel : Nat}
    (hfuel : Nat.pow 2 n.size * symbols.length + 2 ≤ fuel) :
    run n symbols fuel (initial n) = complete n symbols := by
  obtain ⟨more, rfl⟩ := Nat.exists_eq_add_of_le hfuel
  rw [run_add]
  exact run_of_queue_eq_nil (run_complete hn symbols).2 more

theorem run_eq_of_step_eq {symbols' : List Symbol} (h : step m symbols' = step n symbols)
    (fuel : Nat) (b : Subsets) : run m symbols' fuel b = run n symbols fuel b := by
  induction fuel generalizing b with
  | zero => rfl
  | succ fuel ih =>
    rw [run, run, h]
    cases step n symbols b with
    | none => rfl
    | some b' => exact ih b'

/-- Constructions that begin alike and take the same steps come to the same end, where the one of
the larger automaton, or with more symbols, is given more steps than it needs. -/
theorem complete_eq_of_step_eq {symbols' : List Symbol} (hn : n.WellFormed)
    (hsize : n.size ≤ m.size) (hlength : symbols.length ≤ symbols'.length)
    (hinitial : initial m = initial n) (hstep : step m symbols' = step n symbols) :
    complete m symbols' = complete n symbols := by
  have hpow : Nat.pow 2 n.size ≤ Nat.pow 2 m.size := Nat.pow_le_pow_right (by omega) hsize
  have hmul := Nat.mul_le_mul hpow hlength
  rw [complete, hinitial, run_eq_of_step_eq hstep]
  exact run_eq_complete hn (by omega)

/-- An automaton whose sets of states move alike takes the same steps. -/
theorem step_eq_of_moves_eq (h : ∀ s a, m.step s a = n.step s a) (symbols : List Symbol) :
    step m symbols = step n symbols := by
  have hadd : addMove m = addMove n := by
    funext q current b a
    simp only [addMove, h]
  funext b
  simp only [step, hadd]

/-! ### Symbols that lead nowhere -/

/-- The moves on symbols that lead nowhere can be left out. -/
theorem foldl_addMove_filter {keep : Symbol → Bool} {s : StateSet}
    (h : ∀ a ∈ symbols, keep a = false → (n.step s a).isEmpty = true) (q : Nat) (b : Subsets) :
    (symbols.filter keep).foldl (addMove n q s) b = symbols.foldl (addMove n q s) b := by
  induction symbols generalizing b with
  | nil => rfl
  | cons a rest ih =>
    have hrest := ih fun c hc => h c (List.mem_cons_of_mem a hc)
    rw [List.foldl_cons]
    by_cases ha : keep a = true
    · rw [List.filter_cons_of_pos ha, List.foldl_cons]
      exact hrest _
    · have hempty := h a List.mem_cons_self (Bool.eq_false_of_not_eq_true ha)
      have hskip : addMove n q s b a = b := by simp only [addMove, hempty, ↓reduceIte]
      rw [List.filter_cons_of_neg ha, hskip]
      exact hrest b

/-- A construction finds the same with fewer symbols, if the others lead nowhere. -/
theorem complete_filter (hn : n.WellFormed) {keep : Symbol → Bool}
    (h : ∀ a ∈ symbols, keep a = false → ∀ s, (n.step s a).isEmpty = true) :
    complete n symbols = complete n (symbols.filter keep) := by
  refine complete_eq_of_step_eq hn (Nat.le_refl _) (List.length_filter_le _ _) rfl ?_
  have hfold (q : Nat) (s : StateSet) (b : Subsets) :
      (symbols.filter keep).foldl (addMove n q s) b = symbols.foldl (addMove n q s) b :=
    foldl_addMove_filter (fun a ha hkeep => h a ha hkeep s) q b
  funext b
  simp only [step, hfold]

end Subsets

end Dfa

/-! ### States without edges -/

namespace Nfa

/-- An automaton with some more states, to and from which no edges lead. -/
def pad (n : Nfa) : Nat → Nfa
  | 0 => n
  | k + 1 => (n.pad k).newState.2

variable {n : Nfa}

@[simp] theorem size_pad (n : Nfa) (k : Nat) : (n.pad k).size = n.size + k := by
  induction k with
  | zero => rfl
  | succ k ih => rw [pad, size_newState, ih, Nat.add_assoc]

@[simp] theorem start_pad (n : Nfa) (k : Nat) : (n.pad k).start = n.start := by
  induction k with
  | zero => rfl
  | succ k ih => exact ih

@[simp] theorem finish_pad (n : Nfa) (k : Nat) : (n.pad k).finish = n.finish := by
  induction k with
  | zero => rfl
  | succ k ih => exact ih

@[simp] theorem edge_pad {k : Nat} {p q : Int} {a : Symbol} :
    (n.pad k).Edge p a q ↔ n.Edge p a q := by
  induction k with
  | zero => exact Iff.rfl
  | succ k ih => rw [pad, edge_newState, ih]

theorem silent_pad (n : Nfa) (k : Nat) : (n.pad k).Silent = n.Silent := by
  funext p q
  exact propext edge_pad

theorem WellFormed.pad (h : n.WellFormed) (k : Nat) : (n.pad k).WellFormed := by
  induction k with
  | zero => exact h
  | succ k ih => exact ih.newState

theorem startStates_pad (h : n.WellFormed) (k : Nat) : (n.pad k).startStates = n.startStates := by
  refine SortedSet.ext fun q => ?_
  rw [mem_startStates (h.pad k), mem_startStates h, silent_pad, start_pad]

theorem step_pad (h : n.WellFormed) (k : Nat) (s : StateSet) (a : Symbol) :
    (n.pad k).step s a = n.step s a := by
  refine SortedSet.ext fun q => ?_
  simp only [mem_step (h.pad k), mem_step h, silent_pad, edge_pad]

end Nfa

namespace Dfa

variable {n m : Nfa}

/-- Automata with the same construction and the same final state have the same subset automaton. -/
theorem ofNfa_eq_of_complete_eq {alphabet : Alphabet}
    (h : Subsets.complete m alphabet.toList = Subsets.complete n alphabet.toList)
    (hfinish : m.finish = n.finish) : ofNfa m alphabet = ofNfa n alphabet := by
  rw [ofNfa, ofNfa, h, hfinish]

/-- States without edges are in no set that is found. -/
theorem ofNfa_pad (hn : n.WellFormed) (k : Nat) (alphabet : Alphabet) :
    ofNfa (n.pad k) alphabet = ofNfa n alphabet := by
  refine ofNfa_eq_of_complete_eq (Subsets.complete_eq_of_step_eq hn ?_ (Nat.le_refl _) ?_ ?_) ?_
  · rw [Nfa.size_pad]
    omega
  · rw [Subsets.initial, Subsets.initial, Nfa.startStates_pad hn]
  · exact Subsets.step_eq_of_moves_eq (Nfa.step_pad hn k) alphabet.toList
  · exact Nfa.finish_pad n k

end Dfa

end RegexAutomata
