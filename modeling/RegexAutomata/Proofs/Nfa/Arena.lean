/-
States, what is stored for them, and the numbers that they get.

The edges that leave a state are stored with it, and so is whether an edge enters it. Both views of
the edges agree after any operations, and states are numbered in the order of their creation.

* `Arena`, `Tidy.arena` — what is stored is a transition relation on the states over the alphabet;
* `exists_addTransition_eq_error_iff`, `perform_addTransition_eq_self` — an edge that is refused or
  that is there already changes nothing;
* `Operation.created_sublist` — the numbers that are given to new states;
* `arena_after` — all of this after any operations.
-/
import RegexAutomata.Proofs.Nfa.Memory
import RegexAutomata.Proofs.Nfa.Transitions

namespace RegexAutomata.Nfa

variable {n : Nfa} {p q : Int} {a : Symbol} {ts : List Int}

/-- The transition relation lists what is stored, and the questions about entering and leaving edges
are answered by it. -/
structure Arena (n : Nfa) : Prop where
  /-- what is stored at a position is listed under its number -/
  listed : ∀ (i : Nat) (node : Node), n.nodes[i]? = some node →
    ∀ a ts, ((i : Int), a, ts) ∈ n.transitions ↔ (a, ts) ∈ node.edges
  /-- no state has two entries for a symbol -/
  keys : (n.transitions.map fun t => (t.1, t.2.1)).Nodup
  source : ∀ t ∈ n.transitions, n.IsAllocated t.1
  symbol : ∀ t ∈ n.transitions, t.2.1 = epsilon ∨ t.2.1 ∈ n.alphabet
  targets : ∀ t ∈ n.transitions, t.2.2 ≠ [] ∧ t.2.2.Nodup ∧ ∀ q ∈ t.2.2, n.IsAllocated q
  hasIncoming_iff : ∀ q, n.hasIncoming q = true ↔ ∃ t ∈ n.transitions, q ∈ t.2.2
  hasOutgoing_iff : ∀ q, n.IsAllocated q →
    (n.hasOutgoing q = true ↔ ∃ t ∈ n.transitions, t.1 = q)
  /-- a state whose number fits into a machine word is found at its position -/
  hasOutgoingAt_eq : ∀ q, n.IsAllocated q → q < 0x8000000000000000 →
    n.hasOutgoingAt q = .ok (n.hasOutgoing q)

theorem hasOutgoingAt_of_isAllocated (hq : n.IsAllocated q) (hlt : q < 0x8000000000000000) :
    n.hasOutgoingAt q = .ok (n.hasOutgoing q) := by
  have hnonneg := hq.1
  rw [hasOutgoingAt, if_neg (by omega), if_neg (Int.not_lt.mpr hnonneg)]
  exact if_pos hq

namespace Tidy

variable (h : n.Tidy)

include h

theorem exists_mem_transitions_to : (∃ t ∈ n.transitions, q ∈ t.2.2) ↔ ∃ p a, n.Edge p a q := by
  constructor
  · rintro ⟨⟨p, a, ts⟩, hmem, hq⟩
    obtain ⟨-, rfl⟩ := h.mem_transitions.mp hmem
    exact ⟨p, a, hq⟩
  · rintro ⟨p, a, hq⟩
    exact ⟨(p, a, n.targets p a), h.mem_transitions.mpr ⟨List.ne_nil_of_mem hq, rfl⟩, hq⟩

theorem exists_mem_transitions_from :
    (∃ t ∈ n.transitions, t.1 = p) ↔ ∃ a q, n.Edge p a q := by
  constructor
  · rintro ⟨⟨p, a, ts⟩, hmem, rfl⟩
    obtain ⟨hne, -⟩ := h.mem_transitions.mp hmem
    obtain ⟨q, hq⟩ := List.exists_mem_of_ne_nil _ hne
    exact ⟨a, q, hq⟩
  · rintro ⟨a, q, hq⟩
    exact ⟨(p, a, n.targets p a), h.mem_transitions.mpr ⟨List.ne_nil_of_mem hq, rfl⟩, rfl⟩

theorem arena (hn : n.Sound) : n.Arena where
  listed i node hnode a ts := by
    have hnode : n.node? i = some node := by simpa [node?] using hnode
    rw [mem_transitions_iff_node]
    constructor
    · rintro ⟨node', hnode', hmem⟩
      rw [hnode, Option.some_inj] at hnode'
      exact hnode' ▸ hmem
    · exact fun hmem => ⟨node, hnode, hmem⟩
  keys := h.nodup_keys
  source t ht := by
    obtain ⟨q, hq⟩ := List.exists_mem_of_ne_nil _ (h.mem_transitions.mp ht).1
    exact Edge.isAllocated hq
  symbol t ht := by
    obtain ⟨q, hq⟩ := List.exists_mem_of_ne_nil _ (h.mem_transitions.mp ht).1
    exact hn.labelsKnown hq
  targets t ht := by
    obtain ⟨node, hnode, hmem⟩ := mem_transitions_iff_node.mp ht
    obtain ⟨hne, hnodup⟩ := (h t.1 node hnode).targets _ hmem
    refine ⟨hne, hnodup, fun q hq => ?_⟩
    obtain ⟨-, htargets⟩ := h.mem_transitions.mp ht
    rw [← htargets] at hq
    exact hn.wellFormed.isAllocated hq
  hasIncoming_iff q := by rw [hn.wellFormed.hasIncoming_iff, h.exists_mem_transitions_to]
  hasOutgoing_iff q _ := by rw [hn.wellFormed.hasOutgoing_iff, h.exists_mem_transitions_from]
  hasOutgoingAt_eq q hq hlt := hasOutgoingAt_of_isAllocated hq hlt

end Tidy

/-! ### Refused edges -/

/-- An edge is refused exactly for an end that is no state or an unknown symbol. -/
theorem exists_addTransition_eq_error_iff :
    (∃ e m, addTransition p a q n = .error e m) ↔
      ¬n.IsAllocated p ∨ ¬n.IsAllocated q ∨ (a ≠ epsilon ∧ a ∉ n.alphabet) := by
  have hok : (∃ m, addTransition p a q n = .ok () m) ↔
      n.IsAllocated p ∧ n.IsAllocated q ∧ (a = epsilon ∨ a ∈ n.alphabet) := by
    simp only [addTransition_eq_ok_iff, exists_and_left, exists_eq, and_true]
  have herror : (∃ e m, addTransition p a q n = .error e m) ↔
      ¬∃ m, addTransition p a q n = .ok () m := by
    cases addTransition p a q n <;> simp
  rw [herror, hok]
  tauto

theorem exists_perform_addTransition_eq_error_iff :
    (∃ e, ((Change.addTransition p a q).perform n).1 = .error e) ↔
      ∃ e m, addTransition p a q n = .error e m := by
  rw [Change.perform]
  cases addTransition p a q n <;> simp

/-- A refused edge changes nothing, and neither does one that is there already. -/
theorem perform_addTransition_eq_self
    (h : (∃ e m, addTransition p a q n = .error e m) ∨ n.Edge p a q) :
    ((Change.addTransition p a q).perform n).2 = n := by
  rw [Change.perform]
  cases hadd : addTransition p a q n with
  | error e m => exact eq_of_addTransition_eq_error hadd
  | ok _ m =>
    obtain ⟨-, -, -, rfl⟩ := addTransition_eq_ok_iff.mp hadd
    rcases h with ⟨e, m, he⟩ | he
    · rw [hadd] at he
      cases he
    · exact link_eq_self he

/-! ### Numbers of new states -/

/-- The state that an outcome tells. -/
def Answer.state? : Except OperationError Answer → Option Int
  | .ok (.state q) => some q
  | _ => none

/-- The numbers of states that follow those of one automaton, up to those of another. -/
def numbersSince (n m : Nfa) : List Int := (List.range' n.size (m.size - n.size)).map Nat.cast

theorem numbersSince_append {m k : Nfa} (hm : n.size ≤ m.size) (hk : m.size ≤ k.size) :
    numbersSince n m ++ numbersSince m k = numbersSince n k := by
  have happend : List.range' n.size (m.size - n.size) ++
      List.range' (n.size + (m.size - n.size)) (k.size - m.size) =
      List.range' n.size ((m.size - n.size) + (k.size - m.size)) := List.range'_append_1
  have hlength : (m.size - n.size) + (k.size - m.size) = k.size - n.size := by omega
  rw [Nat.add_sub_of_le hm, hlength] at happend
  rw [numbersSince, numbersSince, numbersSince, ← List.map_append, happend]

theorem numbersSince_newState (n : Nfa) : numbersSince n n.newState.2 = [(n.size : Int)] := by
  rw [numbersSince, size_newState, Nat.add_sub_cancel_left]
  rfl

namespace Operation

theorem size_le_perform (n : Nfa) (op : Operation) : n.size ≤ (op.perform n).2.size := by
  cases op with
  | change c =>
    obtain ⟨m, hm, start, finish, heq⟩ := c.grows n
    show n.size ≤ (c.perform n).2.size
    rw [heq]
    exact hm.size_le
  | ask q =>
    obtain ⟨r, hr⟩ := n.exists_rememberAll_eq (q.needs n)
    show n.size ≤ (n.rememberAll (q.needs n)).size
    rw [hr]
    exact Nat.le_refl _

theorem size_le_after (n : Nfa) (ops : List Operation) : n.size ≤ (after n ops).size := by
  induction ops generalizing n with
  | nil => exact Nat.le_refl _
  | cons op rest ih => exact (size_le_perform n op).trans (ih (op.perform n).2)

/-- Only the creation of a state tells a state. -/
theorem state?_perform_of_ne (n : Nfa) {op : Operation} (h : op ≠ .change .newState) :
    Answer.state? (op.perform n).1 = none := by
  cases op with
  | change c =>
    cases c with
    | newState => exact absurd rfl h
    | addTransition p a q =>
      rw [perform, Change.perform]
      cases Nfa.addTransition p a q n <;> rfl
    | setStart q => rfl
    | setFinish q => rfl
    | parse regex =>
      rw [perform, Change.perform]
      rcases Regex.parseInto regex n with ⟨_ | _, m⟩ <;> rfl
  | ask q =>
    rw [perform, Question.perform]
    cases q with
    | hasOutgoing i =>
      dsimp only [Question.answer]
      split <;> rfl
    | _ => rfl

/-- The states that are told on the way through some operations, in their order. -/
def created (n : Nfa) (ops : List Operation) : List Int :=
  (outcomes n ops).filterMap Answer.state?

theorem created_cons (n : Nfa) (op : Operation) (ops : List Operation) :
    created n (op :: ops) =
      (Answer.state? (op.perform n).1).toList ++ created (op.perform n).2 ops := by
  rw [created, outcomes, List.filterMap_cons]
  cases Answer.state? (op.perform n).1 <;> rfl

/-- The states that are told are new ones in the order of their numbers. The numbers left out are
those of the states that expressions have created. -/
theorem created_sublist (n : Nfa) (ops : List Operation) :
    (created n ops).Sublist (numbersSince n (after n ops)) := by
  induction ops generalizing n with
  | nil => exact List.nil_sublist _
  | cons op rest ih =>
    have hsize := size_le_perform n op
    have hrest := size_le_after (op.perform n).2 rest
    rw [created_cons, after]
    rw [← numbersSince_append hsize hrest]
    by_cases hop : op = .change .newState
    · subst hop
      have hnew : numbersSince n ((change .newState).perform n).2 = [(n.size : Int)] :=
        n.numbersSince_newState
      rw [hnew]
      exact (List.Sublist.refl _).append (ih _)
    · rw [state?_perform_of_ne n hop]
      exact (ih _).trans (List.sublist_append_right _ _)

end Operation

/-- A change creates states and adds edges, one after the other, or sets the start or the final
state. -/
theorem Change.builds (n : Nfa) (c : Change) :
    ∃ m, Builds n m ∧ ∃ start finish, (c.perform n).2 = { m with start, finish } := by
  obtain ⟨m, hm, start, finish, heq⟩ := c.grows n
  exact ⟨m, hm.builds fun _ ha => ha, start, finish, heq⟩

/-- After any operations: the transition relation is that of the edges which are stored, and agrees
with what is known of entering and leaving edges. States get the numbers from 0 on in the order of
their creation, and none gets a number that was given before; an expression creates its states one
by one in the same way. An edge is refused exactly for an end that is no state or an unknown symbol;
if it is refused or there already, then the automaton is the same as before, and so is everything
that follows. -/
theorem arena_after (alphabet : Alphabet) (ops : List Operation) :
    let n := Operation.after (.empty alphabet) ops
    n.Arena ∧ n.alphabet = alphabet ∧
    (Change.newState.perform n = (.ok (.state n.size), n.newState.2) ∧
      n.newState.2.size = n.size + 1) ∧
    (Operation.created (.empty alphabet) ops).Sublist ((List.range n.size).map Nat.cast) ∧
    (∀ rest, (Operation.created n rest).Sublist (numbersSince n (Operation.after n rest))) ∧
    (∀ c : Change, ∃ m, Builds n m ∧ ∃ start finish, (c.perform n).2 = { m with start, finish }) ∧
    ∀ p a q,
      let op := Operation.change (.addTransition p a q)
      ((∃ e, (op.perform n).1 = .error e) ↔
        ¬n.IsAllocated p ∨ ¬n.IsAllocated q ∨ (a ≠ epsilon ∧ a ∉ alphabet)) ∧
      (n.Edge p a q → (op.perform n).1 = .ok .done) ∧
      ((∃ e, (op.perform n).1 = .error e) ∨ n.Edge p a q → (op.perform n).2 = n ∧
        ∀ rest, Operation.outcomes n (op :: rest) =
          (op.perform n).1 :: Operation.outcomes n rest) := by
  intro n
  have hn : n.Sound := sound_after alphabet ops
  have halphabet : n.alphabet = alphabet := Operation.alphabet_after (.empty alphabet) ops
  refine ⟨(tidy_after alphabet ops).arena hn, halphabet, ⟨rfl, size_newState n⟩, ?_,
    Operation.created_sublist n, fun c => c.builds n, ?_⟩
  · have hcreated := Operation.created_sublist (.empty alphabet) ops
    have hsince : numbersSince (.empty alphabet) n = (List.range n.size).map Nat.cast := by
      rw [numbersSince, List.range_eq_range']
      rfl
    rwa [hsince] at hcreated
  · intro p a q op
    have herror : (∃ e, (op.perform n).1 = .error e) ↔ ∃ e m, addTransition p a q n = .error e m :=
      exists_perform_addTransition_eq_error_iff
    refine ⟨?_, ?_, ?_⟩
    · rw [herror, exists_addTransition_eq_error_iff, halphabet]
    · intro he
      have hadd : addTransition p a q n = .ok () (n.link p a q) := addTransition_eq_ok_iff.mpr
        ⟨he.isAllocated, hn.wellFormed.isAllocated he, hn.labelsKnown he, rfl⟩
      show ((Change.addTransition p a q).perform n).1 = .ok .done
      rw [Change.perform, hadd]
    · rw [herror]
      intro h
      have hself : (op.perform n).2 = n := perform_addTransition_eq_self h
      refine ⟨hself, fun rest => ?_⟩
      rw [Operation.outcomes_cons, hself]

end RegexAutomata.Nfa
