/-
Traces of any automaton.

Nothing is asked of the automaton here: it may have moves on symbols outside of its alphabet, moves
to states beyond its number of states, and accepting states that do not exist. Where a path ends,
the trace goes on with no move (`traceFrom_pathEnd`), so that what it says there can be read off one
step.

* `Rejection.message_injective` — the wording of a rejection tells the cause;
* `Runs` — a path that the automaton takes along a text;
* `traceFrom_append` — the trace of a text goes on behind a first part that was read;
* `maximal_trace` — a trace is a longest run, and tells why it ended there.
-/
import RegexAutomata.Proofs.Dfa.Simulation
import RegexAutomata.Proofs.Text.Delimited

namespace RegexAutomata.Dfa

/-! ### Wording -/

namespace Rejection

/-- The letter that the wording begins with. -/
def letter : Rejection → Char
  | outsideAlphabet _ => 'S'
  | noMove _ _ => 'N'
  | notAccepting _ => 'F'

theorem head?_message (cause : Rejection) : cause.message.head? = some (.ofChar cause.letter) := by
  cases cause <;> rfl

/-- The causes are worded with different first letters, and each names all that it is about. -/
theorem message_injective : Function.Injective message := by
  intro cause cause' h
  have hletter : cause.letter = cause'.letter := by
    have hhead := congrArg List.head? h
    rw [head?_message, head?_message] at hhead
    exact CodePoint.ofChar_injective (Option.some.inj hhead)
  cases cause with
  | outsideAlphabet c =>
    cases cause' with
    | outsideAlphabet e =>
      rw [message, message, List.append_cancel_right_eq, List.append_cancel_left_eq] at h
      rw [List.singleton_inj.mp h]
    | noMove e q => cases hletter
    | notAccepting q => cases hletter
  | noMove c p =>
    cases cause' with
    | outsideAlphabet e => cases hletter
    | noMove e q =>
      rw [message, message, List.append_assoc, List.append_assoc, List.append_assoc,
        List.append_assoc, List.append_cancel_left_eq] at h
      obtain ⟨rfl, hrest⟩ := List.cons.inj h
      rw [Text.ofInt_injective (List.append_cancel_left hrest)]
    | notAccepting q => cases hletter
  | notAccepting p =>
    cases cause' with
    | outsideAlphabet e => cases hletter
    | noMove e q => cases hletter
    | notAccepting q =>
      rw [message, message, List.append_cancel_right_eq, List.append_cancel_left_eq] at h
      rw [Text.ofInt_injective h]

end Rejection

/-! ### Paths -/

/-- The end of a path is the target of its last move, or where it starts if it has no moves. -/
theorem pathEnd_eq (q : Int) (path : List Move) :
    pathEnd q path = (path.getLast?.map (·.target)).getD q := by
  induction path generalizing q with
  | nil => rfl
  | cons m rest ih =>
    rw [pathEnd, ih, List.getLast?_cons]
    cases rest.getLast? <;> rfl

/-- A path from a state along a text: it reads the code points of the text in their order, each move
goes on where the one before ended, and all of them are moves of the automaton. -/
structure Runs (d : Dfa) (q : Int) (path : List Move) (w : Text) : Prop where
  length_le : path.length ≤ w.length
  source : ∀ m ∈ path.head?, m.source = q
  symbol : ∀ (i : Nat) (m : Move), path[i]? = some m → ∃ c, w[i]? = some c ∧ m.symbol = [c]
  connected : path.IsChain fun m m' => m.target = m'.source
  recorded : ∀ m ∈ path, d.next? m.source m.symbol = some m.target

namespace Runs

variable {d : Dfa} {q r : Int} {c : CodePoint} {w : Text} {path : List Move}

theorem nil (d : Dfa) (q : Int) (w : Text) : d.Runs q [] w where
  length_le := Nat.zero_le _
  source := by rintro m ⟨⟩
  symbol := by rintro i m ⟨⟩
  connected := .nil
  recorded := by rintro m ⟨⟩

/-- A move leads on to a path from its target. -/
theorem cons (h : d.Runs r path w) (hnext : d.next? q [c] = some r) :
    d.Runs q (⟨q, [c], r⟩ :: path) (c :: w) where
  length_le := Nat.succ_le_succ h.length_le
  source := by
    rintro m ⟨⟩
    rfl
  symbol := by
    intro i m hm
    cases i with
    | zero =>
      cases hm
      exact ⟨c, rfl, rfl⟩
    | succ i => exact h.symbol i m hm
  connected := List.isChain_cons.mpr ⟨fun m hm => (h.source m hm).symm, h.connected⟩
  recorded := List.forall_mem_cons.mpr ⟨hnext, h.recorded⟩

end Runs

/-! ### Traces -/

section Trace

variable (d : Dfa) (q : Int) (position : Nat) (w : Text)

theorem runs_traceFrom : d.Runs q (d.traceFrom q position w).path w := by
  induction w generalizing q position with
  | nil =>
    rw [path_traceFrom_nil]
    exact .nil d q []
  | cons c w ih =>
    cases hnext : d.next? q [c] with
    | none =>
      rw [path_traceFrom_cons_of_none position w hnext]
      exact .nil d q (c :: w)
    | some r =>
      rw [traceFrom_cons_of_some position w hnext]
      exact (ih r (position + 1)).cons hnext

variable {d q position w} in
theorem traceFrom_pathEnd_of_nil (h : (d.traceFrom q position w).path = []) :
    d.traceFrom (pathEnd q (d.traceFrom q position w).path)
        (position + (d.traceFrom q position w).path.length)
        (w.drop (d.traceFrom q position w).path.length) =
      ⟨[], (d.traceFrom q position w).rejection⟩ := by
  rw [h]
  exact congrArg (Trace.mk · _) h

/-- From the end of the path there is no move for the rest of the text, and the trace ends as the
trace of the rest does. -/
theorem traceFrom_pathEnd :
    d.traceFrom (pathEnd q (d.traceFrom q position w).path)
        (position + (d.traceFrom q position w).path.length)
        (w.drop (d.traceFrom q position w).path.length) =
      ⟨[], (d.traceFrom q position w).rejection⟩ := by
  induction w generalizing q position with
  | nil => exact traceFrom_pathEnd_of_nil (path_traceFrom_nil d q position)
  | cons c w ih =>
    cases hnext : d.next? q [c] with
    | none => exact traceFrom_pathEnd_of_nil (path_traceFrom_cons_of_none position w hnext)
    | some r =>
      have hrest := ih r (position + 1)
      rw [Nat.add_assoc, Nat.add_comm 1] at hrest
      rw [traceFrom_cons_of_some position w hnext]
      exact hrest

/-- Behind a first part that was read, the trace goes on from the end of its path. -/
theorem traceFrom_append {u : Text} (v : Text)
    (hu : (d.traceFrom q position u).path.length = u.length) :
    (d.traceFrom q position (u ++ v)).path = (d.traceFrom q position u).path ++
      (d.traceFrom (pathEnd q (d.traceFrom q position u).path) (position + u.length) v).path := by
  induction u generalizing q position with
  | nil =>
    rw [path_traceFrom_nil]
    rfl
  | cons c u ih =>
    cases hnext : d.next? q [c] with
    | none =>
      rw [path_traceFrom_cons_of_none position u hnext] at hu
      cases hu
    | some r =>
      rw [traceFrom_cons_of_some position u hnext] at hu ⊢
      have hrest := ih r (position + 1) (Nat.succ.inj hu)
      rw [Nat.add_assoc, Nat.add_comm 1] at hrest
      rw [List.cons_append, traceFrom_cons_of_some position (u ++ v) hnext]
      exact congrArg (_ :: ·) hrest

variable {d q position w} {t : Trace} {last : Int}

/-- Where a trace ends, either the text was read and the last state decides, or there is no move for
the next code point and the alphabet decides how this is worded. -/
theorem ends_traceFrom (ht : d.traceFrom q position w = t) (hlast : pathEnd q t.path = last) :
    (t.path.length = w.length ∧ t.rejection =
        if last ∈ d.accepting then none
        else some (.notAccepting last, position + t.path.length)) ∨
      ∃ c, w[t.path.length]? = some c ∧ d.next? last [c] = none ∧ t.rejection =
        some (if [c] ∈ d.alphabet then .noMove c last else .outsideAlphabet c,
          position + t.path.length) := by
  have hend := traceFrom_pathEnd d q position w
  rw [ht, hlast] at hend
  cases hrest : w.drop t.path.length with
  | nil =>
    have hlength : t.path.length ≤ w.length := ht ▸ (runs_traceFrom d q position w).length_le
    rw [hrest, traceFrom] at hend
    refine .inl ⟨Nat.le_antisymm hlength (List.drop_eq_nil_iff.mp hrest), ?_⟩
    by_cases hmem : last ∈ d.accepting
    · rw [if_pos hmem] at hend ⊢
      exact congrArg Trace.rejection hend.symm
    · rw [if_neg hmem] at hend ⊢
      exact congrArg Trace.rejection hend.symm
  | cons c rest =>
    have hc : w[t.path.length]? = some c := by rw [← List.head?_drop, hrest, List.head?_cons]
    rw [hrest] at hend
    cases hnext : d.next? last [c] with
    | none =>
      rw [traceFrom, hnext] at hend
      exact .inr ⟨c, hc, hnext, congrArg Trace.rejection hend.symm⟩
    -- a move would make the path longer
    | some r =>
      rw [traceFrom_cons_of_some _ rest hnext] at hend
      exact absurd (congrArg Trace.path hend) (List.cons_ne_nil _ _)

end Trace

/-! ### Causes of rejection -/

/-- The wording of a cause tells how a run along a text ended: after some moves, in a last state. -/
structure Rejection.Tells (cause : Rejection) (d : Dfa) (w : Text) (moves : Nat) (last : Int) :
    Prop where
  outsideAlphabet : ∀ c, cause.message = (outsideAlphabet c).message ↔
    w[moves]? = some c ∧ [c] ∉ d.alphabet
  noMove : ∀ c q, cause.message = (noMove c q).message ↔
    w[moves]? = some c ∧ [c] ∈ d.alphabet ∧ q = last
  notAccepting : ∀ q, cause.message = (notAccepting q).message ↔ moves = w.length ∧ q = last

namespace Rejection

variable {d : Dfa} {w : Text} {moves : Nat}

theorem tells_notAccepting (h : moves = w.length) (last : Int) :
    (notAccepting last).Tells d w moves last := by
  have hnone : w[moves]? = none := List.getElem?_eq_none (Nat.le_of_eq h.symm)
  constructor
  · simp [message_injective.eq_iff, hnone]
  · simp [message_injective.eq_iff, hnone]
  · simp [message_injective.eq_iff, h, eq_comm]

theorem tells_of_getElem? {c : CodePoint} (h : w[moves]? = some c) (last : Int) :
    (if [c] ∈ d.alphabet then noMove c last else outsideAlphabet c).Tells d w moves last := by
  have hlength : moves ≠ w.length := Nat.ne_of_lt (List.getElem?_eq_some_iff.mp h).1
  by_cases hc : [c] ∈ d.alphabet
  · rw [if_pos hc]
    refine ⟨fun e => ?_, fun e q => ?_, fun q => ?_⟩
    · rw [message_injective.eq_iff, h, Option.some_inj]
      refine iff_of_false nofun ?_
      rintro ⟨rfl, he⟩
      exact he hc
    · rw [message_injective.eq_iff, h, Option.some_inj, noMove.injEq]
      constructor
      · rintro ⟨rfl, rfl⟩
        exact ⟨rfl, hc, rfl⟩
      · rintro ⟨rfl, -, rfl⟩
        exact ⟨rfl, rfl⟩
    · rw [message_injective.eq_iff]
      exact iff_of_false nofun fun he => hlength he.1
  · rw [if_neg hc]
    refine ⟨fun e => ?_, fun e q => ?_, fun q => ?_⟩
    · rw [message_injective.eq_iff, h, Option.some_inj, outsideAlphabet.injEq]
      exact ⟨fun he => ⟨he, he ▸ hc⟩, And.left⟩
    · rw [message_injective.eq_iff, h, Option.some_inj]
      refine iff_of_false nofun ?_
      rintro ⟨rfl, he, -⟩
      exact hc he
    · rw [message_injective.eq_iff]
      exact iff_of_false nofun fun he => hlength he.1

end Rejection

/-- The trace of any text in any automaton is a run from the start state that cannot go on: the
whole text was read, or there is no move for the next code point. The text is accepted if it was read
to an accepting state. If not, the position is the number of moves, and the wording tells which of
the three ways to end it was. Behind a text that was read, the path only gets longer. -/
theorem maximal_trace (d : Dfa) (w : Text) :
    let t := d.trace w
    let last := (t.path.getLast?.map (·.target)).getD start
    d.Runs start t.path w ∧
      (t.path.length = w.length ∨
        ∃ c, w[t.path.length]? = some c ∧ d.next? last [c] = none) ∧
      (t.accepted = true ↔ t.path.length = w.length ∧ last ∈ d.accepting) ∧
      (t.accepted = false → ∃ cause, t.rejection = some (cause, t.path.length) ∧
        cause.Tells d w t.path.length last) ∧
      ∀ v, t.path.length = w.length → t.path <+: (d.trace (w ++ v)).path := by
  intro t last
  have hprefix (v : Text) (hw : t.path.length = w.length) : t.path <+: (d.trace (w ++ v)).path :=
    ⟨_, (traceFrom_append d start 0 v hw).symm⟩
  refine ⟨runs_traceFrom d start 0 w, ?_⟩
  have hlast : pathEnd start t.path = last := pathEnd_eq start t.path
  have hend := ends_traceFrom (t := t) rfl hlast
  rw [Nat.zero_add] at hend
  rcases hend with ⟨hlength, hrejection⟩ | ⟨c, hc, hnext, hrejection⟩
  · refine ⟨.inl hlength, ?_, fun haccepted => ?_, hprefix⟩
    · rw [Trace.accepted_iff, hrejection]
      simp [hlength]
    · have hmem : last ∉ d.accepting := by
        intro hmem
        rw [Trace.accepted_iff.mpr (hrejection.trans (if_pos hmem))] at haccepted
        cases haccepted
      exact ⟨_, hrejection.trans (if_neg hmem), Rejection.tells_notAccepting hlength last⟩
  · have hlength : t.path.length ≠ w.length := Nat.ne_of_lt (List.getElem?_eq_some_iff.mp hc).1
    refine ⟨.inr ⟨c, hc, hnext⟩, ?_, fun _ => ?_, hprefix⟩
    · rw [Trace.accepted_iff, hrejection]
      simp [hlength]
    · exact ⟨_, hrejection, Rejection.tells_of_getElem? hc last⟩

end RegexAutomata.Dfa
