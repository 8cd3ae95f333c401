/-
The shape of the automaton of an expression.

* `Expr.entry_ne_exit_block` — the ends of a fragment are different states;
* `Expr.entered_block_iff`, `Expr.left_block_iff` — an edge enters the entry of a fragment exactly
  if the expression begins with a starred part, and leaves the exit exactly if it ends with one;
* `Expr.singleReading_compile` — a state has at most one edge that reads a symbol;
* `trim_of_toNfa` — so the automaton of an expression has two different ends, no useless state, and
  no choice between symbols.

The first facts are shown for the fragment that is built in an automaton without states, where two
parts of an expression lie one behind the other.
-/
import RegexAutomata.Proofs.Regex.Trace

namespace RegexAutomata

namespace Nfa

variable {n m : Nfa} {f g : Fragment} {p q : Int} {a : Symbol}

/-- Nothing leads to a new state. -/
theorem WellFormed.not_edge_to (h : n.WellFormed) (hq : n.size ≤ q) : ¬n.Edge p a q := by
  intro he
  have := (h.isAllocated he).2
  omega

/-- Nothing leads away from a new state. -/
theorem not_edge_from (hp : n.size ≤ p) : ¬n.Edge p a q := by
  intro he
  have := he.isAllocated.2
  omega

theorem not_edge_choose_entry (h : n.WellFormed) (hf : n.Holds f) (hg : n.Holds g) :
    ¬(choose f g n).2.Edge p a n.size := by
  rw [edge_choose hf hg]
  rintro (he | ⟨-, -, he | he⟩ | ⟨-, -, he⟩)
  · exact h.not_edge_to (Int.le_refl _) he
  · exact absurd hf.entry.2 (by omega)
  · exact absurd hg.entry.2 (by omega)
  · omega

/-! ### Edges that read a symbol -/

/-- A state has at most one edge that reads a symbol. -/
def SingleReading (n : Nfa) : Prop :=
  ∀ p a q b r, n.Edge p a q → n.Edge p b r → a ≠ epsilon → b ≠ epsilon → a = b ∧ q = r

namespace SingleReading

theorem newState (h : n.SingleReading) : n.newState.2.SingleReading :=
  fun p a q b r he he' => h p a q b r (edge_newState.mp he) (edge_newState.mp he')

/-- Silent edges do not matter. -/
theorem silent (h : n.SingleReading) (hp : n.IsAllocated p) (q : Int) :
    (n.link p epsilon q).SingleReading := by
  intro r a s b t he he' ha hb
  rcases (edge_link hp).mp he with he | ⟨-, rfl, -⟩
  · rcases (edge_link hp).mp he' with he' | ⟨-, rfl, -⟩
    · exact h r a s b t he he' ha hb
    · exact absurd rfl hb
  · exact absurd rfl ha

theorem literal (h : n.SingleReading) (c : CodePoint) :
    (Nfa.literal [c] n).2.SingleReading := by
  intro r a s b t he he' ha hb
  -- the new edge leaves a new state
  rcases edge_literal.mp he with he | ⟨rfl, rfl, rfl⟩
  · rcases edge_literal.mp he' with he' | ⟨rfl, -, -⟩
    · exact h r a s b t he he' ha hb
    · exact absurd he (not_edge_from (Int.le_refl _))
  · rcases edge_literal.mp he' with he' | ⟨-, rfl, rfl⟩
    · exact absurd he' (not_edge_from (Int.le_refl _))
    · exact ⟨rfl, rfl⟩

theorem join (h : n.SingleReading) (hf : n.Holds f) (g : Fragment) :
    (Nfa.join f g n).2.SingleReading := h.silent hf.exit g.entry

theorem choose (h : n.SingleReading) (hf : n.Holds f) (hg : n.Holds g) :
    (Nfa.choose f g n).2.SingleReading := by
  have hf := hf.mono (m := n.grow) (by simp)
  have hg := hg.mono (m := n.grow) (by simp)
  have hgrow : n.grow.SingleReading := h.newState.newState
  have hnew := n.isAllocated_newEnds_grow.1
  rw [choose_eq]
  refine silent (silent (silent (silent hgrow hnew _) ?_ _) ?_ _) ?_ _
  all_goals simp only [isAllocated_link, hnew, hf.exit, hg.exit]

theorem wrap (h : n.SingleReading) (hf : n.Holds f) : (Nfa.wrap f n).2.SingleReading := by
  have hf := hf.mono (m := n.grow) (by simp)
  have hgrow : n.grow.SingleReading := h.newState.newState
  have hnew := n.isAllocated_newEnds_grow.1
  rw [wrap_eq]
  exact silent (silent hgrow hnew _) (isAllocated_link.mpr hf.exit) _

theorem loop (h : n.SingleReading) (hf : n.Holds f) : (Nfa.loop f n).2.SingleReading :=
  silent (silent h hf.exit _) (isAllocated_link.mpr hf.entry) _

theorem star (h : n.SingleReading) (hf : n.Holds f) : (Nfa.star f n).2.SingleReading := by
  rw [star_eq]
  split
  · exact (h.wrap hf).loop (holds_wrap f n)
  · exact h.loop hf

end SingleReading

end Nfa

namespace Regex

namespace Expr

variable {n : Nfa}

/-- Whether an expression begins with a starred part. -/
def begins : Expr → Bool
  | literal _ => false
  | concat e _ => e.begins
  | union _ _ => false
  | star _ => true

/-- Whether an expression ends with a starred part. -/
def ends : Expr → Bool
  | literal _ => false
  | concat _ f => f.ends
  | union _ _ => false
  | star _ => true

/-! ### Fragments built in an automaton without states -/

theorem block_literal_fst (c : CodePoint) : (literal c).block.1 = ⟨0, 1⟩ := Nfa.literal_fst _ _

theorem edge_block_literal {c : CodePoint} {p q : Int} {a : Symbol} :
    (literal c).block.2.Edge p a q ↔ p = 0 ∧ a = [c] ∧ q = 1 := by
  rw [block, compile_literal, Nfa.edge_literal]
  refine or_iff_right fun he => ?_
  exact Nfa.not_edge_from he.isAllocated.1 he

theorem block_concat (e f : Expr) : (concat e f).block =
    Nfa.join e.block.1 (f.block.1.shift e.block.2.size) (e.block.2.append f.block.2) := by
  rw [block, compile_concat, compile_eq_beside f]
  rfl

theorem entry_block_concat (e f : Expr) :
    (concat e f).block.1.entry = e.block.1.entry := by
  rw [block_concat]
  rfl

theorem exit_block_concat (e f : Expr) :
    (concat e f).block.1.exit = f.block.1.exit + e.block.2.size := by
  rw [block_concat]
  rfl

theorem block_union (e f : Expr) : (union e f).block =
    Nfa.choose e.block.1 (f.block.1.shift e.block.2.size) (e.block.2.append f.block.2) := by
  rw [block, compile_union, compile_eq_beside f]
  rfl

theorem block_star (e : Expr) : (star e).block = Nfa.star e.block.1 e.block.2 := rfl

/-- Both fragments are states of the automaton that has one part behind the other. -/
theorem holds_parts (e f : Expr) :
    (e.block.2.append f.block.2).Holds e.block.1 ∧
      (e.block.2.append f.block.2).Holds (f.block.1.shift e.block.2.size) := by
  refine ⟨e.holds_block.mono (by simp), ?_⟩
  have hf := f.holds_compile e.block.2
  rwa [compile_eq_beside] at hf

theorem wellFormed_parts (e f : Expr) : (e.block.2.append f.block.2).WellFormed := by
  have hf := f.wellFormed_compile e.wellFormed_block
  rwa [compile_eq_beside] at hf

/-- The edges of two parts and the edge that joins them. -/
theorem edge_block_concat {e f : Expr} {p q : Int} {a : Symbol} :
    (concat e f).block.2.Edge p a q ↔
      (e.block.2.Edge p a q ∨
        ∃ r s, f.block.2.Edge r a s ∧ p = r + e.block.2.size ∧ q = s + e.block.2.size) ∨
      (p = e.block.1.exit ∧ a = epsilon ∧ q = f.block.1.entry + e.block.2.size) := by
  rw [block_concat, Nfa.edge_join (holds_parts e f).1, Nfa.edge_append_iff]
  rfl

/-- The ends of a fragment are different states. -/
theorem entry_ne_exit_block (e : Expr) : e.block.1.entry ≠ e.block.1.exit := by
  have hnew (n : Nfa) : n.newEnds.entry ≠ n.newEnds.exit := by
    rw [Nfa.newEnds]
    simp only
    omega
  induction e with
  | literal c => exact hnew _
  | concat e f _ _ =>
    have he := e.holds_block.entry.2
    have hf := f.holds_block.exit.1
    rw [entry_block_concat, exit_block_concat]
    omega
  | union e f _ _ =>
    rw [block_union, Nfa.choose_fst]
    exact hnew _
  | star e ih =>
    rw [block_star, Nfa.star_eq]
    split
    · rw [Nfa.loop, Nfa.wrap_fst]
      exact hnew _
    · exact ih

/-- A star loops from the exit of its fragment to the entry. -/
theorem edge_block_star (e : Expr) :
    (star e).block.2.Edge (star e).block.1.exit epsilon (star e).block.1.entry := by
  have hloop {f : Nfa.Fragment} {n : Nfa} (hf : n.Holds f) :
      (Nfa.loop f n).2.Edge f.exit epsilon f.entry :=
    (Nfa.edge_loop hf).mpr (.inr (.inl ⟨rfl, rfl, rfl⟩))
  rw [block_star, Nfa.star_eq]
  split
  · exact hloop (Nfa.holds_wrap _ _)
  · exact hloop e.holds_block

/-- An edge enters the entry of a fragment exactly if the expression begins with a starred part. -/
theorem entered_block_iff (e : Expr) :
    (∃ p a, e.block.2.Edge p a e.block.1.entry) ↔ e.begins = true := by
  induction e with
  | literal c =>
    refine iff_of_false ?_ (by simp [begins])
    rintro ⟨p, a, he⟩
    have hzero := (edge_block_literal.mp he).2.2
    rw [block_literal_fst] at hzero
    cases hzero
  | concat e f ihe _ =>
    have hentry := e.holds_block.entry.2
    rw [begins, ← ihe, entry_block_concat]
    constructor
    · rintro ⟨p, a, he⟩
      rcases edge_block_concat.mp he with (he | ⟨r, s, he, -, hs⟩) | ⟨-, -, hq⟩
      · exact ⟨p, a, he⟩
      · have := (f.wellFormed_block.isAllocated he).1
        omega
      · have := f.holds_block.entry.1
        omega
    · rintro ⟨p, a, he⟩
      exact ⟨p, a, edge_block_concat.mpr (.inl (.inl he))⟩
  | union e f _ _ =>
    refine iff_of_false ?_ (by simp [begins])
    rintro ⟨p, a, he⟩
    obtain ⟨ha, hb⟩ := holds_parts e f
    rw [block_union, Nfa.choose_fst] at he
    exact Nfa.not_edge_choose_entry (wellFormed_parts e f) ha hb he
  | star e _ => exact iff_of_true ⟨_, _, e.edge_block_star⟩ rfl

/-- An edge leaves the exit of a fragment exactly if the expression ends with a starred part. -/
theorem left_block_iff (e : Expr) :
    (∃ a q, e.block.2.Edge e.block.1.exit a q) ↔ e.ends = true := by
  induction e with
  | literal c =>
    refine iff_of_false ?_ (by simp [ends])
    rintro ⟨a, q, he⟩
    have hone := (edge_block_literal.mp he).1
    rw [block_literal_fst] at hone
    cases hone
  | concat e f _ ihf =>
    have hexit := f.holds_block.exit.1
    rw [ends, ← ihf, exit_block_concat]
    constructor
    · rintro ⟨a, q, he⟩
      rcases edge_block_concat.mp he with (he | ⟨r, s, he, hr, -⟩) | ⟨hp, -, -⟩
      · exact absurd he (Nfa.not_edge_from (by omega))
      · obtain rfl : r = f.block.1.exit := by omega
        exact ⟨a, s, he⟩
      · have := e.holds_block.exit.2
        omega
    · rintro ⟨a, q, he⟩
      exact ⟨a, _, edge_block_concat.mpr (.inl (.inr ⟨_, q, he, rfl, rfl⟩))⟩
  | union e f _ _ =>
    refine iff_of_false ?_ (by simp [ends])
    rintro ⟨a, q, he⟩
    obtain ⟨ha, hb⟩ := holds_parts e f
    rw [block_union, Nfa.choose_fst] at he
    exact Nfa.not_edge_choose_exit ha hb he
  | star e _ => exact iff_of_true ⟨_, _, e.edge_block_star⟩ rfl

/-- Only a star skips its fragment. -/
theorem not_skip_block {e : Expr} (h : e.begins = false) :
    ¬e.block.2.Edge e.block.1.entry epsilon e.block.1.exit := by
  intro he
  cases e with
  | literal c =>
    have hlabel := (edge_block_literal.mp he).2.1
    cases hlabel
  | concat e f =>
    have hentry := e.holds_block.entry.2
    have hexit := f.holds_block.exit.1
    rw [entry_block_concat, exit_block_concat] at he
    rcases edge_block_concat.mp he with (he | ⟨r, s, he, hr, -⟩) | ⟨hp, -, -⟩
    · exact e.wellFormed_block.not_edge_to (by omega) he
    · have := he.isAllocated.1
      omega
    · exact e.entry_ne_exit_block hp
  | union e f =>
    obtain ⟨ha, hb⟩ := holds_parts e f
    rw [block_union, Nfa.choose_fst] at he
    obtain ⟨-, hq | hq⟩ := Nfa.edge_choose_entry ha hb he
    · have := ha.entry.2
      simp only [Nfa.newEnds] at hq
      omega
    · have := hb.entry.2
      simp only [Nfa.newEnds] at hq
      omega
  | star e => cases h

/-! ### Fragments built behind other states -/

theorem entry_ne_exit_compile (e : Expr) (n : Nfa) :
    (e.compile n).1.entry ≠ (e.compile n).1.exit := by
  have hne := e.entry_ne_exit_block
  rw [compile_eq_beside]
  simp only [Nfa.beside, Nfa.Fragment.shift]
  omega

/-- Behind other states, the entry of a fragment is entered from within the fragment only. -/
theorem hasIncoming_entry_compile (e : Expr) (n : Nfa) :
    (e.compile n).2.hasIncoming (e.compile n).1.entry = e.begins := by
  rw [compile_eq_beside]
  show (n.append e.block.2).hasIncoming (e.block.1.entry + n.size) = e.begins
  rw [Nfa.hasIncoming_append_right n e.holds_block.entry.1, Bool.eq_iff_iff,
    e.wellFormed_block.hasIncoming_iff, entered_block_iff]

theorem hasOutgoing_exit_compile (e : Expr) (n : Nfa) :
    (e.compile n).2.hasOutgoing (e.compile n).1.exit = e.ends := by
  rw [compile_eq_beside]
  show (n.append e.block.2).hasOutgoing (e.block.1.exit + n.size) = e.ends
  rw [Nfa.hasOutgoing_append_right n e.holds_block.exit.1, Bool.eq_iff_iff,
    e.wellFormed_block.hasOutgoing_iff, left_block_iff]

theorem not_skip_compile {e : Expr} (h : e.begins = false) (n : Nfa) :
    ¬(e.compile n).2.Edge (e.compile n).1.entry epsilon (e.compile n).1.exit := by
  rw [compile_eq_beside]
  show ¬(n.append e.block.2).Edge (e.block.1.entry + n.size) epsilon (e.block.1.exit + n.size)
  rw [Nfa.edge_append_right e.holds_block.entry.1]
  exact not_skip_block h

/-- Reading a literal is the only way to read a symbol from its entry. -/
theorem singleReading_compile (e : Expr) (h : n.SingleReading) :
    (e.compile n).2.SingleReading := by
  induction e generalizing n with
  | literal c => exact h.literal c
  | concat e f ihe ihf =>
    exact (ihf (ihe h)).join ((e.holds_compile n).mono (f.size_le_compile _)) _
  | union e f ihe ihf =>
    exact (ihf (ihe h)).choose ((e.holds_compile n).mono (f.size_le_compile _)) (f.holds_compile _)
  | star e ih => exact (ih h).star (e.holds_compile n)

end Expr

/-- The automaton of an expression has different states as start and final state. A path leads from
the start to each state, and from each state to the final state. No state has two edges that read a
symbol. -/
theorem trim_of_toNfa {regex : Text} {alphabet : Alphabet} {n : Nfa}
    (h : toNfa regex alphabet = .ok n) :
    n.start ≠ n.finish ∧ n.IsAllocated n.start ∧ n.IsAllocated n.finish ∧
      (∀ q, n.IsAllocated q → (∃ w, n.Path n.start w q) ∧ ∃ w, n.Path q w n.finish) ∧
      ∀ p a q b r, n.Edge p a q → n.Edge p b r → a ≠ epsilon → b ≠ epsilon → a = b ∧ q = r := by
  obtain ⟨e, he⟩ := exists_derives_of_toNfa h
  obtain rfl := eq_toNfa_of_derives h he
  have hends := e.holds_compile (.empty alphabet)
  have hempty : (Nfa.empty alphabet).SingleReading :=
    fun p a q b r hedge => absurd hedge (Nfa.not_edge_from hedge.isAllocated.1)
  refine ⟨e.entry_ne_exit_compile _, hends.entry, hends.exit, ?_, ?_⟩
  · intro q hq
    exact e.trim_toNfa alphabet hq
  · intro p a q b r hq hr
    exact e.singleReading_compile hempty p a q b r hq hr

/-- The automaton of `(a*b)*` has a wrapped star, whose operand shares its entry with a star. -/
theorem trim_of_toNfa_star_of_star :
    let n := Expr.toNfa (.star (.concat (.star (.literal 'a')) (.literal 'b'))) (.ofTexts ["ab"])
    toNfa "(a*b)*" (.ofTexts ["ab"]) = .ok n ∧ n.size = 6 ∧
      n.start ≠ n.finish ∧ n.IsAllocated n.start ∧ n.IsAllocated n.finish ∧
      (∀ q, n.IsAllocated q → (∃ w, n.Path n.start w q) ∧ ∃ w, n.Path q w n.finish) ∧
      ∀ p a q b r, n.Edge p a q → n.Edge p b r → a ≠ epsilon → b ≠ epsilon → a = b ∧ q = r :=
  ⟨toNfa_of_derives derives_star_of_star, by decide,
    trim_of_toNfa (toNfa_of_derives derives_star_of_star)⟩

end Regex

end RegexAutomata
