/-
What holds of an automaton after any operations.

* `Change.grows` — a change that fails or succeeds lets the automaton grow, up to its ends;
* `Sound.perform` — operations keep what building steps keep;
* `sound_after` — so it holds of every automaton that operations make from the one without states;
* `accepts_after` — such an automaton accepts the texts of its paths.
-/
import RegexAutomata.Nfa.Operation
import RegexAutomata.Proofs.Nfa.Path
import RegexAutomata.Proofs.Regex.Advance

namespace RegexAutomata.Nfa

variable {n : Nfa}

/-- A change creates states and edges, and sets the start or the final state. -/
theorem Change.grows (n : Nfa) (c : Change) :
    ∃ m, Grows (· ∈ n.alphabet) 0 n m ∧
      ∃ start finish, (c.perform n).2 = { m with start, finish } := by
  cases c with
  | newState => exact ⟨_, .newState .refl, _, _, rfl⟩
  | addTransition p a q =>
    cases h : Nfa.addTransition p a q n with
    | ok _ m =>
      obtain ⟨hp, hq, ha, rfl⟩ := addTransition_eq_ok_iff.mp h
      refine ⟨n.link p a q, .link .refl hp hq hp.1 hq.1 ha, (n.link p a q).start,
        (n.link p a q).finish, ?_⟩
      simp only [perform, h]
    | error e m =>
      obtain rfl := eq_of_addTransition_eq_error h
      refine ⟨m, .refl, m.start, m.finish, ?_⟩
      simp only [perform, h]
  | setStart q => exact ⟨n, .refl, q, n.finish, rfl⟩
  | setFinish q => exact ⟨n, .refl, n.start, q, rfl⟩
  | parse regex =>
    obtain ⟨m, hm, start, finish, h⟩ := Regex.grows_parseInto regex n
    refine ⟨m, hm.mono n.size.zero_le, start, finish, ?_⟩
    rw [← h, perform]
    rcases Regex.parseInto regex n with ⟨_ | _, m⟩ <;> rfl

/-- Both of what building steps keep. -/
structure Sound (n : Nfa) : Prop where
  wellFormed : n.WellFormed
  labelsKnown : n.LabelsKnown

namespace Sound

theorem empty (alphabet : Alphabet) : (Nfa.empty alphabet).Sound :=
  ⟨WellFormed.empty alphabet, LabelsKnown.empty alphabet⟩

theorem change (h : n.Sound) (c : Change) : (c.perform n).2.Sound := by
  obtain ⟨m, hm, start, finish, heq⟩ := c.grows n
  rw [heq]
  exact ⟨(hm.wellFormed h.wellFormed).withEnds start finish,
    hm.labelsKnown (fun _ ha => ha) h.labelsKnown⟩

/-- A question only makes the automaton remember more. -/
theorem ask (h : n.Sound) (q : Question) : (q.perform n).2.Sound := by
  refine ⟨h.wellFormed.rememberAll _, ?_⟩
  obtain ⟨r, hr⟩ := n.exists_rememberAll_eq (q.needs n)
  show (n.rememberAll (q.needs n)).LabelsKnown
  rw [hr]
  exact h.labelsKnown

theorem perform (h : n.Sound) (op : Operation) : (op.perform n).2.Sound := by
  cases op with
  | change c => exact h.change c
  | ask q => exact h.ask q

theorem after (h : n.Sound) (ops : List Operation) : (Operation.after n ops).Sound := by
  induction ops generalizing n with
  | nil => exact h
  | cons op rest ih => exact ih (h.perform op)

end Sound

/-- Whatever operations were carried out, an automaton is well formed and reads only symbols of its
alphabet. -/
theorem sound_after (alphabet : Alphabet) (ops : List Operation) :
    (Operation.after (.empty alphabet) ops).Sound := (Sound.empty alphabet).after ops

theorem Operation.alphabet_perform (n : Nfa) (op : Operation) :
    (op.perform n).2.alphabet = n.alphabet := by
  cases op with
  | change c =>
    obtain ⟨m, hm, start, finish, heq⟩ := c.grows n
    show (c.perform n).2.alphabet = n.alphabet
    rw [heq]
    exact hm.alphabet_eq
  | ask q =>
    obtain ⟨r, hr⟩ := n.exists_rememberAll_eq (q.needs n)
    show (n.rememberAll (q.needs n)).alphabet = n.alphabet
    rw [hr]

/-- No operation changes the alphabet. -/
theorem Operation.alphabet_after (n : Nfa) (ops : List Operation) :
    (Operation.after n ops).alphabet = n.alphabet := by
  induction ops generalizing n with
  | nil => rfl
  | cons op rest ih => rw [after, ih, alphabet_perform]

/-- After any operations, a text is accepted if it is the text of a path from the start to the final
state. Every set that the run goes through is closed under silent edges and holds what paths with
the text read so far lead to; where the run stops early there are no such paths. -/
theorem accepts_after (alphabet : Alphabet) (ops : List Operation) :
    let n := Operation.after (.empty alphabet) ops
    (∀ w, n.accepts w = true ↔ n.Path n.start w n.finish) ∧
    (∀ w, n.accepts w = true ↔
      ∃ s, (n.tracked n.startStates w)[w.length]? = some s ∧ n.finish ∈ s) ∧
    (∀ (u v : Text) (s : StateSet), (n.tracked n.startStates (u ++ v))[u.length]? = some s →
      n.SilentClosed s ∧ ∀ q, q ∈ s ↔ n.Path n.start u q) ∧
    ∀ u v : Text, (n.tracked n.startStates (u ++ v))[u.length]? = none →
      ∀ q, ¬n.Path n.start u q := by
  intro n
  have hn : n.WellFormed := (sound_after alphabet ops).wellFormed
  refine ⟨accepts_iff_path hn, n.accepts_iff_tracked, ?_, ?_⟩
  · intro u v s hs
    have hset := n.getD_tracked u v
    rw [hs, Option.getD_some] at hset
    subst hset
    exact ⟨hn.silentClosed_statesAfter u, mem_statesAfter hn u⟩
  · intro u v hs q hpath
    have hset := n.getD_tracked u v
    rw [hs, Option.getD_none] at hset
    rw [← mem_statesAfter hn, ← hset] at hpath
    exact SortedSet.not_mem_empty q hpath

end RegexAutomata.Nfa
