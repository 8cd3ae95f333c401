/-
Expressions put together edge by edge.

`Expr.assemble` follows the expression as the grammar nests it: it builds the parts one after the
other, then creates the states that hold them together and adds their edges, each with the checks
that any added edge goes through.

* `Expr.assembles` — no check fails, and the result is the fragment of the expression;
* `toNfa_eq_assemble` — an automaton that was built from a text is the one put together along its
  only expression, down to the order of the edges at each state.

Reading a text takes other ways: it joins a starred symbol to a concatenation before it reads the
next one, and combines the alternatives of a union last, from right to left.
-/
import RegexAutomata.Proofs.Regex.Thompson
import RegexAutomata.Proofs.Regex.Unambiguous

namespace RegexAutomata

namespace Nfa

/-- Two new states. -/
def createEnds : Edit Fragment := do
  let entry ← modifyGet newState
  let exit ← modifyGet newState
  return ⟨entry, exit⟩

/-- Two new states on both sides of a fragment. -/
def enclose (f : Fragment) : Edit Fragment := do
  let ends ← createEnds
  addTransition ends.entry epsilon f.entry
  addTransition f.exit epsilon ends.exit
  return ends

/-- Two new states on both sides of two fragments. -/
def branch (f g : Fragment) : Edit Fragment := do
  let ends ← createEnds
  addTransition ends.entry epsilon f.entry
  addTransition ends.entry epsilon g.entry
  addTransition f.exit epsilon ends.exit
  addTransition g.exit epsilon ends.exit
  return ends

/-- Edges that skip a fragment and repeat it. -/
def addLoop (f : Fragment) : Edit Fragment := do
  addTransition f.exit epsilon f.entry
  addTransition f.entry epsilon f.exit
  return f

variable {n : Nfa} {f g : Fragment}

theorem createEnds_eq_ok (n : Nfa) : createEnds n = .ok n.newEnds n.grow := by
  show EStateM.Result.ok (⟨n.size, n.newState.2.size⟩ : Fragment) n.grow = _
  rw [size_newState]
  rfl

/-- An edge between two states with a known symbol is added without error. -/
theorem addTransition_bind {β : Type} {p q : Int} {a : Symbol} (hp : n.IsAllocated p)
    (hq : n.IsAllocated q) (ha : a = epsilon ∨ a ∈ n.alphabet) (k : Unit → Edit β) :
    (addTransition p a q >>= k) n = k () (n.link p a q) :=
  Regex.run_bind_of_ok (addTransition_eq_ok_iff.mpr ⟨hp, hq, ha, rfl⟩)

theorem addSilent_bind {β : Type} {p q : Int} (hp : n.IsAllocated p) (hq : n.IsAllocated q)
    (k : Unit → Edit β) : (addTransition p epsilon q >>= k) n = k () (n.link p epsilon q) :=
  addTransition_bind hp hq (.inl rfl) k

theorem enclose_eq_ok (hf : n.Holds f) : enclose f n = .ok (wrap f n).1 (wrap f n).2 := by
  have hf := hf.mono (m := n.grow) (by simp)
  have hnew : n.grow.Holds n.newEnds := holds_newEnds (by simp)
  rw [enclose, Regex.run_bind_of_ok (createEnds_eq_ok n), addSilent_bind hnew.entry hf.entry,
    addSilent_bind, wrap_eq]
  · rfl
  all_goals simp only [isAllocated_link, hf.exit, hnew.exit]

theorem branch_eq_ok (hf : n.Holds f) (hg : n.Holds g) :
    branch f g n = .ok (choose f g n).1 (choose f g n).2 := by
  have hf := hf.mono (m := n.grow) (by simp)
  have hg := hg.mono (m := n.grow) (by simp)
  have hnew : n.grow.Holds n.newEnds := holds_newEnds (by simp)
  rw [branch, Regex.run_bind_of_ok (createEnds_eq_ok n), addSilent_bind hnew.entry hf.entry,
    addSilent_bind, addSilent_bind, addSilent_bind, choose_eq]
  · rfl
  all_goals simp only [isAllocated_link, hf.exit, hg.entry, hg.exit, hnew.entry, hnew.exit]

theorem addLoop_eq_ok (hf : n.Holds f) : addLoop f n = .ok (loop f n).1 (loop f n).2 := by
  rw [addLoop, addSilent_bind hf.exit hf.entry,
    addSilent_bind (isAllocated_link.mpr hf.entry) (isAllocated_link.mpr hf.exit)]
  rfl

end Nfa

namespace Regex

open Nfa (Edit Fragment)

namespace Expr

/-- Puts an expression together in an automaton. -/
def assemble : Expr → Edit Fragment
  | literal c => do
    let ends ← Nfa.createEnds
    Nfa.addTransition ends.entry [c] ends.exit
    return ends
  | concat e f => do
    let a ← assemble e
    let b ← assemble f
    Nfa.addTransition a.exit epsilon b.entry
    return ⟨a.entry, b.exit⟩
  | union e f => do
    let a ← assemble e
    let b ← assemble f
    Nfa.branch a b
  | star e => do
    let a ← assemble e
    let n ← get
    if n.hasIncoming a.entry || n.hasOutgoing a.exit then
      let a ← Nfa.enclose a
      Nfa.addLoop a
    else Nfa.addLoop a

/-- The literals of an expression are symbols of an alphabet. -/
def Over (alphabet : Alphabet) : Expr → Prop
  | literal c => [c] ∈ alphabet
  | concat e f => e.Over alphabet ∧ f.Over alphabet
  | union e f => e.Over alphabet ∧ f.Over alphabet
  | star e => e.Over alphabet

theorem over_of_derives {alphabet : Alphabet} {x : Category} {k : Nat} {t : Text} {e : Expr}
    (h : Derives alphabet x k t e) : e.Over alphabet := by
  induction h with
  | literal _ halphabet => exact halphabet
  | group _ ih => exact ih
  | symbol _ ih => exact ih
  | star _ ih => exact ih
  | kleene _ ih => exact ih
  | concat _ _ ihe ihf => exact ⟨ihe, ihf⟩
  | alternative _ ih => exact ih
  | union _ _ ihe ihf => exact ⟨ihe, ihf⟩

/-- No check fails while an expression is put together, and the result is its fragment. -/
def Assembles (e : Expr) (n : Nfa) : Prop :=
  e.assemble n = .ok (e.compile n).1 (e.compile n).2

variable {n : Nfa} {e f : Expr}

namespace Assembles

theorem literal {c : CodePoint} (hc : [c] ∈ n.alphabet) : (literal c).Assembles n := by
  have hnew : n.grow.Holds n.newEnds := Nfa.holds_newEnds (by simp)
  rw [Assembles, assemble, run_bind_of_ok (Nfa.createEnds_eq_ok n),
    Nfa.addTransition_bind hnew.entry hnew.exit (.inr hc), compile_literal, Nfa.literal_eq]
  rfl

theorem concat (he : e.Assembles n) (hf : f.Assembles (e.compile n).2) :
    (concat e f).Assembles n := by
  have ha := (e.holds_compile n).mono (f.size_le_compile (e.compile n).2)
  have hb := f.holds_compile (e.compile n).2
  rw [Assembles, assemble, run_bind_of_ok he, run_bind_of_ok hf,
    Nfa.addSilent_bind ha.exit hb.entry]
  rfl

theorem union (he : e.Assembles n) (hf : f.Assembles (e.compile n).2) :
    (union e f).Assembles n := by
  have ha := (e.holds_compile n).mono (f.size_le_compile (e.compile n).2)
  have hb := f.holds_compile (e.compile n).2
  rw [Assembles, assemble, run_bind_of_ok he, run_bind_of_ok hf]
  exact Nfa.branch_eq_ok ha hb

theorem star (he : e.Assembles n) : (star e).Assembles n := by
  have ha := e.holds_compile n
  rw [Assembles, assemble, run_bind_of_ok he, run_get_bind, compile_star, Nfa.star_eq]
  split
  · rw [run_bind_of_ok (Nfa.enclose_eq_ok ha)]
    exact Nfa.addLoop_eq_ok (Nfa.holds_wrap _ _)
  · exact Nfa.addLoop_eq_ok ha

end Assembles

theorem assembles (e : Expr) (n : Nfa) (h : e.Over n.alphabet) : e.Assembles n := by
  induction e generalizing n with
  | literal c => exact .literal h
  | concat e f ihe ihf => exact (ihe n h.1).concat (ihf _ (by rw [alphabet_compile]; exact h.2))
  | union e f ihe ihf => exact (ihe n h.1).union (ihf _ (by rw [alphabet_compile]; exact h.2))
  | star e ih => exact (ih n h).star

end Expr

/-- An automaton that was built from a text is put together along the expression of the text, which
is the only one that the grammar derives: it has the same states, start and final state, and the
same edges in the same order at each state. -/
theorem toNfa_eq_assemble {alphabet : Alphabet} {regex : Text} {n : Nfa}
    (h : toNfa regex alphabet = .ok n) :
    ∃ e f m, (∀ e', Derives alphabet .union maxDepth regex e' ↔ e' = e) ∧
      e.assemble (.empty alphabet) = .ok f m ∧
      n = { m with start := f.entry, finish := f.exit } := by
  obtain ⟨e, he⟩ := exists_derives_of_toNfa h
  refine ⟨e, (e.compile (.empty alphabet)).1, (e.compile (.empty alphabet)).2, ?_, ?_, ?_⟩
  · intro e'
    constructor
    · exact fun he' => he'.unique he
    · rintro rfl
      exact he
  · exact e.assembles (.empty alphabet) (Expr.over_of_derives he)
  · exact eq_toNfa_of_derives h he

theorem toNfa_eq_assemble_star_of_star :
    ∃ e f m, (∀ e', Derives (.ofTexts ["ab"]) .union maxDepth "(a*b)*" e' ↔ e' = e) ∧
      e.assemble (.empty (.ofTexts ["ab"])) = .ok f m ∧
      toNfa "(a*b)*" (.ofTexts ["ab"]) = .ok { m with start := f.entry, finish := f.exit } := by
  have hn := toNfa_of_derives derives_star_of_star
  obtain ⟨e, f, m, he, hm, heq⟩ := toNfa_eq_assemble hn
  exact ⟨e, f, m, he, hm, hn.trans (congrArg _ heq)⟩

end Regex

end RegexAutomata
