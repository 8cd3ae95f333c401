/-
What an automaton remembers is right at any time, and no answer shows it.

Every operation has the same outcome on an automaton that has forgotten what it remembered, and
leaves the same automaton up to what is remembered. A question leaves the automaton as it was, up to
what is remembered. So questions can be left out of a sequence of operations without changing the
outcome of any other operation.

* `Change.perform_forget`, `Question.answer_forget` — single operations;
* `Operation.perform_congr` — automata that differ in what they remember only stay such automata;
* `Operation.outcomes_kept` — the operations that stay have the outcomes that they had before;
* `closure_after` — closures, remembered or found, after any operations.
-/
import RegexAutomata.Proofs.Nfa.Forget
import RegexAutomata.Proofs.Nfa.Operation
import RegexAutomata.Proofs.Regex.Oblivious

namespace RegexAutomata.Nfa

open Relation (ReflTransGen TransGen)

variable {n m : Nfa}

/-! ### Single operations -/

theorem addTransition_forget (n : Nfa) (p : Int) (a : Symbol) (q : Int) :
    addTransition p a q n.forget = match addTransition p a q n with
      | .ok _ m => .ok () m.forget
      | .error e m => .error e m.forget := by
  have hallocated (r : Int) : n.forget.IsAllocated r ↔ n.IsAllocated r := Iff.rfl
  simp only [addTransition_eq, hallocated, size_forget, alphabet_forget, link_forget]
  by_cases hp : n.IsAllocated p
  · by_cases hq : n.IsAllocated q
    · by_cases ha : a = epsilon ∨ a ∈ n.alphabet <;> simp only [hp, hq, ha, if_true, if_false]
    · simp only [hp, hq, if_true, if_false]
  · simp only [hp, if_false]

theorem Change.perform_forget (n : Nfa) (c : Change) :
    c.perform n.forget = ((c.perform n).1, (c.perform n).2.forget) := by
  cases c with
  | newState => rfl
  | addTransition p a q =>
    rw [perform, perform, addTransition_forget]
    cases Nfa.addTransition p a q n <;> rfl
  | setStart q => rfl
  | setFinish q => rfl
  | parse regex =>
    rw [perform, perform, Regex.parseInto_forget]
    rcases Regex.parseInto regex n with ⟨_ | _, m⟩ <;> rfl

/-- No answer depends on what is remembered, as long as that is right. -/
theorem Question.answer_forget (h : n.WellFormed) (q : Question) :
    q.answer n.forget = q.answer n := by
  cases q with
  | connected q a => rw [answer, answer, h.connected_forget]
  | closure s => rw [answer, answer, h.closureOf_forget]
  | startStates => rw [answer, answer, h.startStates_forget]
  | accepts word => rw [answer, answer, h.accepts_forget]
  | determinized alphabet => rw [answer, answer, alphabet_forget, h.ofNfa_forget]
  | _ => rfl

theorem Question.perform_fst (h : n.WellFormed) (q : Question) :
    (q.perform n).1 = q.answer n := by
  have hremember : (n.rememberAll (q.needs n)).WellFormed := h.rememberAll _
  rw [perform, ← answer_forget hremember, forget_rememberAll, answer_forget h]

/-- A question leaves the automaton as it was, up to what is remembered. -/
theorem Question.forget_perform (n : Nfa) (q : Question) : (q.perform n).2.forget = n.forget :=
  forget_rememberAll n (q.needs n)

namespace Operation

theorem perform_forget (h : n.Sound) (op : Operation) :
    (op.perform n.forget).1 = (op.perform n).1 ∧
      (op.perform n.forget).2.forget = (op.perform n).2.forget := by
  cases op with
  | change c =>
    rw [perform, perform, c.perform_forget]
    exact ⟨rfl, rfl⟩
  | ask q =>
    have hforget : n.forget.WellFormed := h.wellFormed.forget
    constructor
    · show (q.perform n.forget).1 = (q.perform n).1
      rw [q.perform_fst hforget, q.perform_fst h.wellFormed, q.answer_forget h.wellFormed]
    · show (q.perform n.forget).2.forget = (q.perform n).2.forget
      rw [q.forget_perform, q.forget_perform]
      rfl

/-- Automata that differ in what they remember only give the same outcome, and then again differ in
what they remember only. -/
theorem perform_congr (hn : n.Sound) (hm : m.Sound) (h : n.forget = m.forget) (op : Operation) :
    (op.perform n).1 = (op.perform m).1 ∧
      (op.perform n).2.forget = (op.perform m).2.forget := by
  obtain ⟨hn₁, hn₂⟩ := perform_forget hn op
  obtain ⟨hm₁, hm₂⟩ := perform_forget hm op
  rw [h] at hn₁ hn₂
  exact ⟨hn₁.symm.trans hm₁, hn₂.symm.trans hm₂⟩

/-! ### Leaving out questions -/

/-- Whether an operation stays when questions are left out: changes do, and marked questions. -/
def stays : Operation × Bool → Bool
  | (change _, _) => true
  | (ask _, marked) => marked

/-- The operations that stay. -/
def kept (ops : List (Operation × Bool)) : List Operation := (ops.filter stays).map Prod.fst

/-- The outcomes of the operations that stay, when all operations are carried out. -/
def keptOutcomes (n : Nfa) (ops : List (Operation × Bool)) :
    List (Except OperationError Answer) :=
  ((ops.zip (outcomes n (ops.map Prod.fst))).filter fun x => stays x.1).map Prod.snd

theorem outcomes_cons (n : Nfa) (op : Operation) (ops : List Operation) :
    outcomes n (op :: ops) = (op.perform n).1 :: outcomes (op.perform n).2 ops := rfl

theorem kept_cons (op : Operation × Bool) (ops : List (Operation × Bool)) :
    kept (op :: ops) = if stays op then op.1 :: kept ops else kept ops := by
  rw [kept, List.filter_cons]
  split <;> rfl

theorem keptOutcomes_cons (n : Nfa) (op : Operation × Bool) (ops : List (Operation × Bool)) :
    keptOutcomes n (op :: ops) =
      if stays op then (op.1.perform n).1 :: keptOutcomes (op.1.perform n).2 ops
      else keptOutcomes (op.1.perform n).2 ops := by
  rw [keptOutcomes, List.map_cons, outcomes_cons, List.zip_cons_cons, List.filter_cons]
  split <;> rfl

/-- Leaving out questions changes no other outcome, and at the end only what is remembered. -/
theorem outcomes_kept (hn : n.Sound) (hm : m.Sound) (h : n.forget = m.forget)
    (ops : List (Operation × Bool)) :
    outcomes n (kept ops) = keptOutcomes m ops ∧
      (after n (kept ops)).forget = (after m (ops.map Prod.fst)).forget := by
  induction ops generalizing n m with
  | nil => exact ⟨rfl, h⟩
  | cons op ops ih =>
    obtain ⟨op, marked⟩ := op
    have hm' : (op.perform m).2.Sound := hm.perform op
    rw [kept_cons, keptOutcomes_cons]
    by_cases hstays : stays (op, marked) = true
    · obtain ⟨houtcome, hforget⟩ := perform_congr hn hm h op
      obtain ⟨ih₁, ih₂⟩ := ih (hn.perform op) hm' hforget
      rw [if_pos hstays, if_pos hstays, outcomes_cons, houtcome, ih₁]
      exact ⟨rfl, ih₂⟩
    · -- only a question can be left out, and it changes only what is remembered
      obtain ⟨q, rfl⟩ : ∃ q, op = ask q := by
        cases op with
        | change c => exact absurd rfl hstays
        | ask q => exact ⟨q, rfl⟩
      have hforget : n.forget = ((ask q).perform m).2.forget := h.trans (q.forget_perform m).symm
      rw [if_neg hstays, if_neg hstays]
      exact ih hn hm' hforget

end Operation

/-! ### Closures -/

theorem mem_closureOf (h : n.WellFormed) (s : Selection) (q : Int) :
    q ∈ n.closureOf s ↔ ∃ x ∈ s.states, TransGen n.Silent x q := by
  rw [closureOf, SortedSet.mem_unionOver]
  simp only [mem_closure h]

/-- A walk from where a state's silent edges lead to that cannot go on has seen the closure of the
state. -/
theorem mem_seen_iff_of_forall_not_turn {x : Int} {s : Stage}
    (hturns : ReflTransGen n.Turn ⟨∅, n.targets x epsilon⟩ s) (hend : ∀ t, ¬n.Turn s t) (q : Int) :
    q ∈ s.seen ↔ TransGen n.Silent x q := by
  have hwalk := (Walk.initial n (n.targets x epsilon)).turns hturns
  rw [hwalk.mem_iff (work_eq_zero_of_forall_not_turn hend), TransGen.head'_iff]
  rfl

/-- After any operations, walks end, and they end with exactly what one silent edge or more leads
to; what is remembered is the same, and so are the answers, for single states and for selections.
Leaving out questions of what follows changes the outcome of nothing else. -/
theorem closure_after (alphabet : Alphabet) (ops : List Operation) :
    let n := Operation.after (.empty alphabet) ops
    (WellFounded fun t s => n.Turn s t) ∧
    (∀ (x : Int) (s : Stage), ReflTransGen n.Turn ⟨∅, n.targets x epsilon⟩ s →
      (∀ t, ¬n.Turn s t) → ∀ q, q ∈ s.seen ↔ TransGen n.Silent x q) ∧
    (∀ (x : Int) (found : StateSet), n.remembered[x]? = some found →
      ∀ q, q ∈ found ↔ TransGen n.Silent x q) ∧
    (∀ s : Selection, ∃ found, ((Question.closure s).perform n).1 = .ok (.set found) ∧
      ∀ q, q ∈ found ↔ ∃ x ∈ s.states, TransGen n.Silent x q) ∧
    ∀ more : List (Operation × Bool),
      Operation.outcomes n (Operation.kept more) = Operation.keptOutcomes n more ∧
      (Operation.after n (Operation.kept more)).forget
        = (Operation.after n (more.map Prod.fst)).forget := by
  intro n
  have hsound : n.Sound := sound_after alphabet ops
  have hn : n.WellFormed := hsound.wellFormed
  refine ⟨wellFounded_turn hn, ?_, ?_, ?_, ?_⟩
  · intro x s hturns hend q
    exact mem_seen_iff_of_forall_not_turn hturns hend q
  · intro x found hfound q
    exact hn.mem_remembered hfound q
  · intro s
    refine ⟨n.closureOf s, Question.perform_fst hn (.closure s), ?_⟩
    intro q
    exact mem_closureOf hn s q
  · intro more
    exact Operation.outcomes_kept hsound hsound rfl more

end RegexAutomata.Nfa
