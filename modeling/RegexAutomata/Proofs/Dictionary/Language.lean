/-
What is accepted by an automaton that was read back.

A graph with the edges of an automaton has the same paths. A deterministic automaton has at most one
path for a text, if none of its symbols is empty: the one that its trace takes.

* `Nfa.IsGraph.accepts_iff`, `Dfa.IsGraph.accepts_iff` — the graph accepts what the automaton does.
-/
import RegexAutomata.Proofs.Dfa.Simulation
import RegexAutomata.Proofs.Dictionary.Lossless

namespace RegexAutomata

variable {g : FiniteAutomaton} {p q : Int} {w : Text}

/-- The paths of the graph are those of the automaton. -/
theorem Nfa.IsGraph.path_iff {n : Nfa} (h : n.IsGraph g) : g.Path p w q ↔ n.Path p w q := by
  constructor
  · intro hpath
    induction hpath with
    | nil => exact .nil _
    | silent he _ ih => exact .silent ((h.mem_edges _ _ _).mp he) ih
    | read he _ ih => exact .read ((h.mem_edges _ _ _).mp he) ih
  · intro hpath
    induction hpath with
    | nil => exact .nil _
    | silent he _ ih => exact .silent ((h.mem_edges _ _ _).mpr he) ih
    | read he _ ih => exact .read ((h.mem_edges _ _ _).mpr he) ih

theorem Nfa.IsGraph.accepts_iff {n : Nfa} (h : n.IsGraph g) (hn : n.WellFormed) (w : Text) :
    g.Accepts w ↔ n.accepts w = true := by
  rw [Nfa.accepts_iff_path hn, ← h.path_iff, ← h.start_eq]
  constructor
  · rintro ⟨q, hq, hpath⟩
    rwa [(h.mem_accepting q).mp hq] at hpath
  · exact fun hpath => ⟨n.finish, (h.mem_accepting _).mpr rfl, hpath⟩

namespace Dfa.IsGraph

variable {d : Dfa}

/-- Without empty symbols, a path for a text starts with the move on its first code point. -/
theorem path_cons_iff (h : d.IsGraph g) (hsilent : ∀ p, d.next? p epsilon = none) {c : CodePoint} :
    g.Path p (c :: w) q ↔ ∃ r, d.next? p [c] = some r ∧ g.Path r w q := by
  constructor
  · intro hpath
    cases hpath with
    | silent he _ =>
      rw [h.mem_edges, hsilent] at he
      cases he
    | read he hrest => exact ⟨_, (h.mem_edges _ _ _).mp he, hrest⟩
  · rintro ⟨r, hnext, hrest⟩
    exact .read ((h.mem_edges _ _ _).mpr hnext) hrest

theorem path_nil_iff (h : d.IsGraph g) (hsilent : ∀ p, d.next? p epsilon = none) :
    g.Path p [] q ↔ q = p := by
  constructor
  · intro hpath
    cases hpath with
    | nil => rfl
    | silent he _ =>
      rw [h.mem_edges, hsilent] at he
      cases he
  · rintro rfl
    exact .nil q

/-- From any state, the graph accepts what the automaton does. -/
theorem accepted_traceFrom (h : d.IsGraph g) (hsilent : ∀ p, d.next? p epsilon = none) (p : Int)
    (position : Nat) (w : Text) :
    (∃ q ∈ g.accepting, g.Path p w q) ↔ (d.traceFrom p position w).accepted = true := by
  induction w generalizing p position with
  | nil =>
    rw [accepted_traceFrom_nil, ← h.accepting_eq]
    constructor
    · rintro ⟨q, hq, hpath⟩
      rwa [(h.path_nil_iff hsilent).mp hpath] at hq
    · exact fun hp => ⟨p, hp, .nil p⟩
  | cons c w ih =>
    cases hnext : d.next? p [c] with
    | none =>
      rw [accepted_traceFrom_cons_of_none position w hnext]
      refine iff_of_false ?_ (by simp)
      rintro ⟨q, -, hpath⟩
      obtain ⟨r, hr, -⟩ := (h.path_cons_iff hsilent).mp hpath
      rw [hnext] at hr
      cases hr
    | some r =>
      rw [traceFrom_cons_of_some position w hnext]
      refine Iff.trans ?_ (ih r (position + 1))
      constructor
      · rintro ⟨q, hq, hpath⟩
        obtain ⟨r', hr', hrest⟩ := (h.path_cons_iff hsilent).mp hpath
        rw [hnext] at hr'
        cases hr'
        exact ⟨q, hq, hrest⟩
      · rintro ⟨q, hq, hrest⟩
        exact ⟨q, hq, (h.path_cons_iff hsilent).mpr ⟨r, hnext, hrest⟩⟩

theorem accepts_iff (h : d.IsGraph g) (hsilent : ∀ p, d.next? p epsilon = none) (w : Text) :
    g.Accepts w ↔ d.accepts w = true := by
  rw [FiniteAutomaton.Accepts, h.start_eq]
  exact h.accepted_traceFrom hsilent start 0 w

end Dfa.IsGraph

/-- The subset construction has moves on symbols of its alphabet only. -/
theorem Dfa.next?_epsilon_ofNfa {n : Nfa} (hn : n.WellFormed) {symbols : Alphabet}
    (hsymbols : epsilon ∉ symbols) (p : Int) : (ofNfa n symbols).next? p epsilon = none := by
  cases hnext : (ofNfa n symbols).next? p epsilon with
  | none => rfl
  | some r => exact absurd (exists_subset?_source hn (mem_moves_of_next? hnext)).1 hsymbols

end RegexAutomata
