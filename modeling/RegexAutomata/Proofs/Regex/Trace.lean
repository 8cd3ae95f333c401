/-
Where a text is rejected.

The deterministic automaton of an expression reads a text as long as what it has read can be
completed to a text that the expression describes, and rejects it at the first code point after
which this is not possible any more.

* `exists_describes_append_iff` — a text can be completed if the run of the nondeterministic
  automaton is still in some state, since no state is useless;
* `trace_toNfa` — the trace ends at the earliest position, and every state accepts some text.
-/
import RegexAutomata.Proofs.Dfa.Simulation
import RegexAutomata.Proofs.Regex.Trim

namespace RegexAutomata.Regex

variable {alphabet : Alphabet} {regex : Text} {n : Nfa}

/-- Building an automaton is one operation on the automaton without states. -/
theorem after_eq_of_toNfa (h : toNfa regex alphabet = .ok n) :
    Nfa.Operation.after (.empty alphabet) [.change (.parse regex)] = n := by
  rw [toNfa] at h
  simp only [Nfa.Operation.after, Nfa.Operation.perform, Nfa.Change.perform, parseInto]
  cases hr : Parser.parse (.new regex alphabet) with
  | ok f p =>
    rw [hr] at h
    cases h
    rw [Parser.new] at hr
    rw [hr]
  | error e p =>
    rw [hr] at h
    cases h

theorem sound_of_toNfa (h : toNfa regex alphabet = .ok n) : n.Sound := by
  rw [← after_eq_of_toNfa h]
  exact Nfa.sound_after alphabet _

theorem alphabet_of_toNfa (h : toNfa regex alphabet = .ok n) : n.alphabet = alphabet := by
  obtain ⟨e, he⟩ := exists_derives_of_toNfa h
  rw [eq_toNfa_of_derives h he, e.alphabet_toNfa]

/-- The deterministic automaton of an expression accepts what the expression describes. -/
theorem accepts_ofNfa_iff_describes (h : toNfa regex alphabet = .ok n) (w : Text) :
    (Dfa.ofNfa n alphabet).accepts w = true ↔ Describes alphabet regex w := by
  obtain ⟨hn, hlabels⟩ := sound_of_toNfa h
  have haccepts : (Dfa.ofNfa n alphabet).accepts w = true ↔
      n.accepts w = true ∧ ∀ c ∈ w, [c] ∈ alphabet := by
    rw [Nfa.accepts_iff_mem_statesAfter]
    exact Dfa.accepted_traceFrom_iff hn (Dfa.subset?_ofNfa_start hn alphabet) 0 w
  rw [haccepts, describes_iff_accepts h]
  -- what is accepted is written with symbols of the alphabet
  refine and_iff_left_of_imp fun hw => ?_
  rw [← alphabet_of_toNfa h]
  exact ((Nfa.accepts_iff_path hn w).mp hw).mem_alphabet hlabels

/-- From every state some text leads to the final state. -/
theorem exists_path_finish (h : toNfa regex alphabet = .ok n) {q : Int} (hq : n.IsAllocated q) :
    ∃ v, n.Path q v n.finish := by
  obtain ⟨e, he⟩ := exists_derives_of_toNfa h
  have hn := eq_toNfa_of_derives h he
  subst hn
  exact (e.trim_toNfa alphabet hq).2

theorem isAllocated_start (h : toNfa regex alphabet = .ok n) : n.IsAllocated n.start := by
  obtain ⟨e, he⟩ := exists_derives_of_toNfa h
  have hn := eq_toNfa_of_derives h he
  subst hn
  exact (e.holds_compile (.empty alphabet)).entry

/-- A text can be completed to one that the expression describes exactly if its code points are
symbols and the run is still in some state. -/
theorem exists_describes_append_iff (h : toNfa regex alphabet = .ok n) (u : Text) :
    (∃ v, Describes alphabet regex (u ++ v)) ↔
      (∀ c ∈ u, [c] ∈ alphabet) ∧ (n.statesAfter u).isEmpty = false := by
  -- in one direction an accepting run has gone through some state, in the other no state is useless
  obtain ⟨hn, hlabels⟩ := sound_of_toNfa h
  simp only [describes_iff_accepts h]
  constructor
  · rintro ⟨v, hv⟩
    refine ⟨?_, ?_⟩
    · intro c hc
      rw [← alphabet_of_toNfa h]
      exact ((Nfa.accepts_iff_path hn _).mp hv).mem_alphabet hlabels c (List.mem_append_left v hc)
    · rw [Nfa.accepts_iff_mem_statesAfter, Nfa.statesAfter, Nfa.stepAll_append] at hv
      by_contra hempty
      rw [Bool.not_eq_false, SortedSet.isEmpty_iff, Nfa.statesAfter] at hempty
      rw [hempty, Nfa.stepAll_empty] at hv
      exact SortedSet.not_mem_empty _ hv
  · rintro ⟨-, hne⟩
    obtain ⟨q, hq⟩ := SortedSet.isEmpty_eq_false_iff.mp hne
    rw [Nfa.mem_statesAfter hn] at hq
    obtain ⟨v, hv⟩ := exists_path_finish h (hq.isAllocated hn (isAllocated_start h))
    exact ⟨v, (Nfa.accepts_iff_path hn _).mpr (hq.append hv)⟩

/-- From every state of the deterministic automaton some text is accepted. -/
theorem exists_accepted_traceFrom (h : toNfa regex alphabet = .ok n) {q : Int}
    (hq : 0 ≤ q ∧ q < (Dfa.ofNfa n alphabet).states) :
    ∃ v, ((Dfa.ofNfa n alphabet).traceFrom q 0 v).accepted = true := by
  obtain ⟨hn, hlabels⟩ := sound_of_toNfa h
  obtain ⟨s, hs⟩ := (Dfa.exists_subset?_ofNfa n alphabet q).mpr hq
  -- no state stands for a set without states
  have hstates : n.SilentClosed s ∧ ∃ p ∈ s, n.IsAllocated p := by
    rcases Dfa.subset?_ofNfa_eq_start_or_step hn hs with rfl | ⟨t, a, rfl, hne⟩
    · exact ⟨hn.silentClosed_startStates, n.start, (Nfa.mem_startStates hn _).mpr .refl,
        isAllocated_start h⟩
    · obtain ⟨p, hp⟩ := SortedSet.isEmpty_eq_false_iff.mp hne
      exact ⟨hn.silentClosed_step t a, p, hp, hn.isAllocated_of_mem_step hp⟩
  obtain ⟨hclosed, p, hp, halloc⟩ := hstates
  obtain ⟨v, hv⟩ := exists_path_finish h halloc
  refine ⟨v, (Dfa.accepted_traceFrom_iff hn hs 0 v).mpr ⟨?_, ?_⟩⟩
  · exact (Nfa.mem_stepAll hn hclosed v _).mpr ⟨p, hp, hv⟩
  · rw [← alphabet_of_toNfa h]
    exact hv.mem_alphabet hlabels

/-- A part of a text is on the path of the trace exactly if it can be completed. -/
theorem le_length_path_trace_iff (h : toNfa regex alphabet = .ok n) (w : Text) (i : Nat) :
    i ≤ ((Dfa.ofNfa n alphabet).trace w).path.length ↔
      i ≤ w.length ∧ ∃ v, Describes alphabet regex (w.take i ++ v) := by
  have hn := (sound_of_toNfa h).wellFormed
  have hstart : n.startStates.isEmpty = false :=
    SortedSet.isEmpty_eq_false_iff.mpr ⟨n.start, (Nfa.mem_startStates hn _).mpr .refl⟩
  rw [exists_describes_append_iff h]
  exact Dfa.le_length_path_iff hn (Dfa.subset?_ofNfa_start hn alphabet) hstart 0 w i

/-- A text is read as far as what was read can be completed to a text that the expression describes,
and is rejected at the end of its path. No state of the deterministic automaton is dead. -/
theorem trace_toNfa (h : toNfa regex alphabet = .ok n) (w : Text) :
    let d := Dfa.ofNfa n alphabet
    let p := (d.trace w).path.length
    (∀ i ≤ p, ∃ v, Describes alphabet regex (w.take i ++ v)) ∧
      (p < w.length → ¬∃ v, Describes alphabet regex (w.take (p + 1) ++ v)) ∧
      ((d.trace w).accepted = false → ∃ cause, (d.trace w).rejection = some (cause, p)) ∧
      ∀ q, 0 ≤ q → q < d.states → ∃ v, (d.traceFrom q 0 v).accepted = true := by
  intro d p
  refine ⟨?_, ?_, ?_, ?_⟩
  · intro i hi
    exact ((le_length_path_trace_iff h w i).mp hi).2
  -- a first part that can be completed would be longer than what was read
  · intro hp hv
    have : p + 1 ≤ p := (le_length_path_trace_iff h w (p + 1)).mpr ⟨hp, hv⟩
    omega
  · intro hrejected
    rcases d.rejection_traceFrom Dfa.start 0 w with haccepted | ⟨cause, hcause⟩
    · have : (d.trace w).accepted = true := haccepted
      rw [hrejected] at this
      cases this
    · rw [Nat.zero_add] at hcause
      exact ⟨cause, hcause⟩
  · intro q h₀ h₁
    exact exists_accepted_traceFrom h ⟨h₀, h₁⟩

/-- After `aa` the expression can be continued, but not with `c`. -/
theorem trace_toNfa_star_of_star :
    let n := Expr.toNfa (.star (.concat (.star (.literal 'a')) (.literal 'b'))) (.ofTexts ["ab"])
    let d := Dfa.ofNfa n (.ofTexts ["ab"])
    let w : Text := "aac"
    let p := (d.trace w).path.length
    toNfa "(a*b)*" (.ofTexts ["ab"]) = .ok n ∧ p = 2 ∧
      (∀ i ≤ p, ∃ v, Describes (.ofTexts ["ab"]) "(a*b)*" (w.take i ++ v)) ∧
      (p < w.length → ¬∃ v, Describes (.ofTexts ["ab"]) "(a*b)*" (w.take (p + 1) ++ v)) ∧
      ((d.trace w).accepted = false → ∃ cause, (d.trace w).rejection = some (cause, p)) ∧
      ∀ q, 0 ≤ q → q < d.states → ∃ v, (d.traceFrom q 0 v).accepted = true :=
  ⟨toNfa_of_derives derives_star_of_star, by decide +kernel,
    trace_toNfa (toNfa_of_derives derives_star_of_star) _⟩

end RegexAutomata.Regex
