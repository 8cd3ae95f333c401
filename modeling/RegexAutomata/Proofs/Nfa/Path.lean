/-
Paths through an automaton, and that a run follows all of them at once.

The text of a path is what its edges read: a code point for an edge with a symbol of one code point,
nothing for a silent edge. Edges with longer symbols are on no path, since runs read one code point
at a time.

* `mem_statesAfter` — after reading a text a run is in exactly the states that a path from the start
  with this text leads to;
* `accepts_iff_path` — a text is accepted if it is the text of a path to the final state;
* `getD_tracked` — a run that stops early stops where no path leads on.
-/
import RegexAutomata.Proofs.Nfa.Reach

namespace RegexAutomata.Nfa

open Relation (ReflTransGen)

/-- A path from a state to a state, with the text that is read on it. -/
inductive Path (n : Nfa) : Int → Text → Int → Prop where
  | nil (q : Int) : Path n q [] q
  | silent {p q r : Int} {w : Text} : n.Edge p epsilon q → Path n q w r → Path n p w r
  | read {p q r : Int} {c : CodePoint} {w : Text} :
    n.Edge p [c] q → Path n q w r → Path n p (c :: w) r

variable {n m : Nfa}

namespace Path

theorem append {p q r : Int} {u v : Text} (hu : n.Path p u q) (hv : n.Path q v r) :
    n.Path p (u ++ v) r := by
  induction hu with
  | nil => exact hv
  | silent he _ ih => exact .silent he (ih hv)
  | read he _ ih => exact .read he (ih hv)

theorem of_silent {p q : Int} (h : ReflTransGen n.Silent p q) : n.Path p [] q := by
  induction h using ReflTransGen.head_induction_on with
  | refl => exact .nil q
  | head he _ ih => exact .silent he ih

/-- A path that ends where a silent edge starts goes on along this edge. -/
theorem tail_silent {p q r : Int} {w : Text} (h : n.Path p w q) (he : n.Edge q epsilon r) :
    n.Path p w r := by
  have := h.append (.silent he (.nil r))
  rwa [List.append_nil] at this

/-- A path to another state has a first edge. -/
theorem exists_edge {p q : Int} {w : Text} (h : n.Path p w q) (hpq : p ≠ q) :
    (∃ r, n.Edge p epsilon r ∧ n.Path r w q) ∨
      ∃ c v r, w = c :: v ∧ n.Edge p [c] r ∧ n.Path r v q := by
  cases h with
  | nil => exact absurd rfl hpq
  | silent he h => exact .inl ⟨_, he, h⟩
  | read he h => exact .inr ⟨_, _, _, rfl, he, h⟩

/-- From a state that only silent edges leave, a path to another state starts with one of them. -/
theorem exists_silent {p q : Int} {w : Text} {T : Int → Prop}
    (hp : ∀ {a r}, n.Edge p a r → a = epsilon ∧ T r) (h : n.Path p w q) (hpq : p ≠ q) :
    ∃ r, T r ∧ n.Path r w q := by
  rcases h.exists_edge hpq with ⟨r, he, h⟩ | ⟨c, v, r, -, he, -⟩
  · exact ⟨r, (hp he).2, h⟩
  · exact absurd (hp he).1 (by simp [epsilon])

/-- From a state that no edge leaves there is only the path without edges. -/
theorem eq_of_not_left {p q : Int} {w : Text} (hp : ∀ a r, ¬n.Edge p a r) (h : n.Path p w q) :
    q = p ∧ w = [] := by
  cases h with
  | nil => exact ⟨rfl, rfl⟩
  | silent he _ => exact absurd he (hp _ _)
  | read he _ => exact absurd he (hp _ _)

/-- Paths from a region that no edge leaves are carried over with the edges of the region. -/
theorem map {S : Int → Prop} {f : Int → Int}
    (hf : ∀ {p a q}, S p → n.Edge p a q → S q ∧ m.Edge (f p) a (f q)) {p q : Int} {w : Text}
    (hp : S p) (h : n.Path p w q) : m.Path (f p) w (f q) := by
  induction h with
  | nil => exact .nil _
  | silent he _ ih =>
    obtain ⟨hq, he⟩ := hf hp he
    exact .silent he (ih hq)
  | read he _ ih =>
    obtain ⟨hq, he⟩ := hf hp he
    exact .read he (ih hq)

theorem mono (hf : ∀ {p a q}, n.Edge p a q → m.Edge p a q) {p q : Int} {w : Text}
    (h : n.Path p w q) : m.Path p w q :=
  map (S := fun _ => True) (f := id) (fun _ he => ⟨trivial, hf he⟩) trivial h

/-- Paths do not depend on the start and the final state. -/
theorem withEnds_iff {start finish p q : Int} {w : Text} :
    Path { n with start, finish } p w q ↔ n.Path p w q := by
  constructor
  · exact mono (n := { n with start, finish }) (m := n) fun he => he
  · exact mono (n := n) (m := { n with start, finish }) fun he => he

theorem isAllocated (hn : n.WellFormed) {p q : Int} {w : Text} (hp : n.IsAllocated p)
    (h : n.Path p w q) : n.IsAllocated q := by
  induction h with
  | nil => exact hp
  | silent he _ ih => exact ih (hn.isAllocated he)
  | read he _ ih => exact ih (hn.isAllocated he)

/-- Only symbols of the alphabet are read. -/
theorem mem_alphabet (hn : n.LabelsKnown) {p q : Int} {w : Text} (h : n.Path p w q) :
    ∀ c ∈ w, [c] ∈ n.alphabet := by
  induction h with
  | nil => exact fun c hc => absurd hc List.not_mem_nil
  | silent _ _ ih => exact ih
  | read he _ ih =>
    intro c hc
    rcases List.mem_cons.mp hc with rfl | hc
    · exact (hn he).resolve_left (by simp [epsilon])
    · exact ih c hc

/-- A path out of a region that has a single way out, a silent edge, splits at this edge. -/
theorem leave {S : Int → Prop} {exit out : Int}
    (hS : ∀ {p a q}, S p → m.Edge p a q →
      (S q ∧ n.Edge p a q) ∨ (p = exit ∧ a = epsilon ∧ q = out))
    {p q : Int} {w : Text} (hp : S p) (hq : ¬S q) (h : m.Path p w q) :
    ∃ u v, w = u ++ v ∧ n.Path p u exit ∧ m.Path out v q := by
  induction h with
  | nil => exact absurd hp hq
  | silent he h ih =>
    rcases hS hp he with ⟨hr, he⟩ | ⟨rfl, -, rfl⟩
    · obtain ⟨u, v, rfl, hu, hv⟩ := ih hr hq
      exact ⟨u, v, rfl, .silent he hu, hv⟩
    · exact ⟨[], _, rfl, .nil _, h⟩
  | read he h ih =>
    rcases hS hp he with ⟨hr, he⟩ | ⟨-, ha, -⟩
    · obtain ⟨u, v, rfl, hu, hv⟩ := ih hr hq
      exact ⟨_ :: u, v, rfl, .read he hu, hv⟩
    · exact absurd ha (by simp [epsilon])

end Path

/-! ### Runs -/

/-- The states after reading a text from a set of states. -/
def stepAll (n : Nfa) (current : StateSet) (w : Text) : StateSet :=
  w.foldl (fun s c => n.step s [c]) current

theorem stepAll_append (n : Nfa) (s : StateSet) (u v : Text) :
    n.stepAll s (u ++ v) = n.stepAll (n.stepAll s u) v := List.foldl_append

/-- The states that a run is in after reading a text. -/
def statesAfter (n : Nfa) (w : Text) : StateSet := n.stepAll n.startStates w

/-- No silent edge leaves a set of states. -/
def SilentClosed (n : Nfa) (s : StateSet) : Prop := ∀ p ∈ s, ∀ q, n.Silent p q → q ∈ s

theorem WellFormed.silentClosed_startStates (h : n.WellFormed) : n.SilentClosed n.startStates := by
  intro p hp q hpq
  rw [mem_startStates h] at hp ⊢
  exact hp.tail hpq

theorem WellFormed.silentClosed_step (h : n.WellFormed) (s : StateSet) (a : Symbol) :
    n.SilentClosed (n.step s a) := by
  intro p hp q hpq
  rw [mem_step h] at hp ⊢
  obtain ⟨r, hr, t, he, ht⟩ := hp
  exact ⟨r, hr, t, he, ht.tail hpq⟩

/-- A path from a silently closed set either reads nothing and stays in it, or first moves on. -/
theorem mem_step_of_path (h : n.WellFormed) {s : StateSet} (hs : n.SilentClosed s) {p r : Int}
    {c : CodePoint} {w : Text} (hp : p ∈ s) (hw : n.Path p (c :: w) r) :
    ∃ q ∈ n.step s [c], n.Path q w r := by
  generalize hx : c :: w = x at hw
  induction hw with
  | nil => cases hx
  | silent he _ ih => exact ih (hs _ hp _ he) hx
  | read he hw _ =>
    cases hx
    exact ⟨_, (mem_step h).mpr ⟨_, hp, _, he, .refl⟩, hw⟩

theorem mem_of_path_nil {s : StateSet} (hs : n.SilentClosed s) {p r : Int} (hp : p ∈ s)
    (hw : n.Path p [] r) : r ∈ s := by
  generalize hx : ([] : Text) = x at hw
  induction hw with
  | nil => exact hp
  | silent he _ ih => exact ih (hs _ hp _ he) hx
  | read => cases hx

theorem mem_stepAll (h : n.WellFormed) {s : StateSet} (hs : n.SilentClosed s) (w : Text) (q : Int) :
    q ∈ n.stepAll s w ↔ ∃ p ∈ s, n.Path p w q := by
  induction w generalizing s with
  | nil =>
    constructor
    · exact fun hq => ⟨q, hq, .nil q⟩
    · rintro ⟨p, hp, hw⟩
      exact mem_of_path_nil hs hp hw
  | cons c w ih =>
    have ih := ih (h.silentClosed_step s [c])
    rw [stepAll] at ih
    rw [stepAll, List.foldl_cons, ih]
    constructor
    · rintro ⟨r, hr, hw⟩
      obtain ⟨p, hp, t, he, ht⟩ := (mem_step h).mp hr
      exact ⟨p, hp, .read he ((Path.of_silent ht).append hw)⟩
    · rintro ⟨p, hp, hw⟩
      exact mem_step_of_path h hs hp hw

/-- A run is in all states that paths from the start lead to. -/
theorem mem_statesAfter (h : n.WellFormed) (w : Text) (q : Int) :
    q ∈ n.statesAfter w ↔ n.Path n.start w q := by
  rw [statesAfter, mem_stepAll h h.silentClosed_startStates]
  constructor
  · rintro ⟨p, hp, hw⟩
    exact (Path.of_silent ((mem_startStates h p).mp hp)).append hw
  · intro hw
    exact ⟨n.start, (mem_startStates h _).mpr .refl, hw⟩

theorem stepAll_empty (n : Nfa) (w : Text) : n.stepAll ∅ w = ∅ := by
  induction w with
  | nil => rfl
  | cons c w ih => exact ih

/-- Where no state is left, none comes back. -/
theorem stepAll_cons_of_isEmpty {s : StateSet} {c : CodePoint} (hs : (n.step s [c]).isEmpty = true)
    (w : Text) : n.stepAll s (c :: w) = ∅ := by
  have hall : n.stepAll s (c :: w) = n.stepAll (n.step s [c]) w := rfl
  rw [hall, SortedSet.isEmpty_iff.mp hs, stepAll_empty]

/-- Giving up as soon as no state is left makes no difference. -/
theorem acceptsFrom_iff (n : Nfa) (s : StateSet) (w : Text) :
    n.acceptsFrom s w = true ↔ n.finish ∈ n.stepAll s w := by
  induction w generalizing s with
  | nil => simp [acceptsFrom, stepAll]
  | cons c w ih =>
    rw [acceptsFrom]
    by_cases hs : (n.step s [c]).isEmpty
    · rw [if_pos hs, stepAll_cons_of_isEmpty hs]
      simp
    · rw [if_neg hs]
      exact ih _

/-- What is left of a text is read from the states after its first part. -/
theorem acceptsFrom_append (n : Nfa) (s : StateSet) (u v : Text) :
    n.acceptsFrom s (u ++ v) = n.acceptsFrom (n.stepAll s u) v := by
  rw [Bool.eq_iff_iff, acceptsFrom_iff, acceptsFrom_iff, stepAll_append]

theorem accepts_iff_mem_statesAfter (n : Nfa) (w : Text) :
    n.accepts w = true ↔ n.finish ∈ n.statesAfter w := n.acceptsFrom_iff n.startStates w

/-- A text is accepted if it is read on a path from the start to the final state. -/
theorem accepts_iff_path (h : n.WellFormed) (w : Text) :
    n.accepts w = true ↔ n.Path n.start w n.finish := by
  rw [accepts_iff_mem_statesAfter, mem_statesAfter h]

/-- What paths from the start lead to is closed, as a path can end with silent edges. -/
theorem WellFormed.silentClosed_statesAfter (h : n.WellFormed) (w : Text) :
    n.SilentClosed (n.statesAfter w) := by
  intro p hp q hpq
  rw [mem_statesAfter h] at hp ⊢
  exact hp.tail_silent hpq

/-! ### The sets of a run -/

/-- The sets of states that a run goes through, the first one included. The run stops where no state
is left. -/
def tracked (n : Nfa) (current : StateSet) : Text → List StateSet
  | [] => [current]
  | c :: rest =>
    let following := n.step current [c]
    current :: if following.isEmpty then [] else tracked n following rest

/-- The set after the first part of a text; where the run has stopped before, no state is left. -/
theorem getD_tracked_append (n : Nfa) (s : StateSet) (u v : Text) :
    (n.tracked s (u ++ v))[u.length]?.getD ∅ = n.stepAll s u := by
  induction u generalizing s with
  | nil => cases v <;> rfl
  | cons c u ih =>
    rw [List.cons_append, tracked, List.length_cons, List.getElem?_cons_succ]
    by_cases hs : (n.step s [c]).isEmpty
    · rw [if_pos hs, stepAll_cons_of_isEmpty hs]
      rfl
    · rw [if_neg hs]
      exact ih (n.step s [c])

theorem getD_tracked (n : Nfa) (u v : Text) :
    (n.tracked n.startStates (u ++ v))[u.length]?.getD ∅ = n.statesAfter u :=
  n.getD_tracked_append n.startStates u v

/-- A text is accepted if the run does not stop in it and the final state is in the last set. -/
theorem accepts_iff_tracked (n : Nfa) (w : Text) :
    n.accepts w = true ↔
      ∃ s, (n.tracked n.startStates w)[w.length]? = some s ∧ n.finish ∈ s := by
  have hlast := n.getD_tracked w []
  rw [List.append_nil] at hlast
  rw [accepts_iff_mem_statesAfter, ← hlast]
  cases (n.tracked n.startStates w)[w.length]? with
  | none => simp
  | some s => simp

end RegexAutomata.Nfa
