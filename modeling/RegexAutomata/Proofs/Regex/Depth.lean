/-
How many groups a failing rule leaves open.

A rule that fails leaves the groups open that it has opened. There are never more of them than the
rule may nest, so that the number of open groups stays within the limit, whatever fails. Rules that
are put together from rules with this property have it, so all rules do.

* `opensAtMost_symbolWithin` — symbols, by induction on how many groups may still be opened;
* `Category.opensAtMost_rule` — the rules of all categories.
-/
import RegexAutomata.Proofs.Regex.Reading

namespace RegexAutomata.Regex

open Nfa (Fragment)

variable {α β : Type}

/-- A rule that succeeds leaves no group open that it has opened, and one that fails at most the
given number of them. -/
def OpensAtMost (level : Nat) (r : Rule α) : Prop :=
  ∀ p, Ensures r p (fun _ q => q.depth = p.depth) fun q => q.depth ≤ p.depth + level

namespace OpensAtMost

variable {level : Nat} {r : Rule α} {f : α → Rule β}

theorem bind (hr : OpensAtMost level r) (hf : ∀ a, OpensAtMost level (f a)) :
    OpensAtMost level (r >>= f) := by
  intro p
  refine Ensures.bind (hr p) fun a q hq => ?_
  rw [← hq]
  exact hf a q

theorem pure (a : α) : OpensAtMost level (Pure.pure a) := by
  intro p
  exact Eq.refl p.depth

theorem fail (cause : Cause) : OpensAtMost (α := α) level (Parser.fail cause) := by
  intro p
  exact Nat.le_add_right p.depth level

theorem get {g : Parser → Rule α} (hg : ∀ p, OpensAtMost level (g p)) :
    OpensAtMost level (MonadState.get >>= g) := by
  intro p
  exact hg p p

theorem peek {g : Option CodePoint → Rule α} (hg : ∀ c, OpensAtMost level (g c)) :
    OpensAtMost level (Parser.peek >>= g) := by
  intro p
  exact hg p.rest.head? p

theorem consume : OpensAtMost level (discard Parser.consume) := by
  intro p
  obtain ⟨regex, rest, position, depth, nfa⟩ := p
  cases rest <;> exact Eq.refl depth

theorem build (b : Nfa → Fragment × Nfa) : OpensAtMost level (Parser.build b) := by
  intro p
  exact Eq.refl p.depth

theorem ite {P : Prop} [Decidable P] {r' : Rule α} (hr : OpensAtMost level r)
    (hr' : OpensAtMost level r') : OpensAtMost level (if P then r else r') := by
  split
  · exact hr
  · exact hr'

/-- A rule in a group, which is left open if the rule fails. -/
theorem group (hr : OpensAtMost level r) (hf : ∀ a, OpensAtMost (level + 1) (f a)) :
    OpensAtMost (level + 1) (do
      Parser.setDepth (· + 1)
      let a ← r
      Parser.setDepth (· - 1)
      f a) := by
  intro p
  rw [Ensures, run_setDepth_bind]
  refine Ensures.bind (Ensures.mono (hr (p.withDepth (p.depth + 1))) (fun _ _ h => h) ?_) ?_
  · intro q hq
    change q.depth ≤ p.depth + 1 + level at hq
    omega
  · intro a q hq
    have hclose : (q.withDepth (q.depth - 1)).depth = p.depth := by
      change q.depth = p.depth + 1 at hq
      show q.depth - 1 = p.depth
      omega
    rw [Ensures, run_setDepth_bind, ← hclose]
    exact hf a _

end OpensAtMost

section Rules

variable {level : Nat} {sym : Rule Fragment}

theorem opensAtMost_literal (c : CodePoint) : OpensAtMost level (Parser.literal c) := by
  refine .get ?_
  intro p
  refine .ite (.fail _) ?_
  exact .bind .consume fun _ => .build _

theorem opensAtMost_symbolWith {group : Rule Fragment} (hgroup : OpensAtMost level group) :
    OpensAtMost level (Parser.symbolWith group) := by
  refine .peek ?_
  rintro (_ | c)
  · exact .fail _
  · exact .ite hgroup (opensAtMost_literal c)

theorem opensAtMost_kleeneWith (hsym : OpensAtMost level sym) :
    OpensAtMost level (Parser.kleeneWith sym) := by
  refine .bind hsym ?_
  intro f
  refine .peek ?_
  intro c
  refine .ite ?_ (.pure f)
  exact .bind .consume fun _ => .build _

theorem opensAtMost_concatRest (hsym : OpensAtMost level sym) (fuel : Nat) (f : Fragment) :
    OpensAtMost level (Parser.concatRest sym fuel f) := by
  induction fuel generalizing f with
  | zero => exact .pure f
  | succ fuel ih =>
    refine .peek ?_
    intro c
    refine .ite (.pure f) ?_
    refine .bind (opensAtMost_kleeneWith hsym) ?_
    intro g
    exact .bind (.build _) ih

theorem opensAtMost_concatWith (hsym : OpensAtMost level sym) :
    OpensAtMost level (Parser.concatWith sym) := by
  refine .bind (opensAtMost_kleeneWith hsym) ?_
  intro f
  exact .get fun p => opensAtMost_concatRest hsym p.rest.length f

theorem opensAtMost_alternatives (hsym : OpensAtMost level sym) (fuel : Nat) :
    OpensAtMost level (Parser.alternatives sym fuel) := by
  induction fuel with
  | zero => exact .pure []
  | succ fuel ih =>
    refine .peek ?_
    intro c
    refine .ite ?_ (.pure [])
    refine .bind .consume fun _ => .bind (opensAtMost_concatWith hsym) ?_
    intro f
    exact .bind ih fun others => .pure (f :: others)

theorem opensAtMost_endOfUnion : OpensAtMost level Parser.endOfUnion := by
  refine .peek ?_
  rintro (_ | c)
  · exact .pure ()
  · exact .ite (.pure ()) (.fail _)

theorem opensAtMost_unionWith (hsym : OpensAtMost level sym) :
    OpensAtMost level (Parser.unionWith sym) := by
  refine .bind (opensAtMost_concatWith hsym) ?_
  intro f
  refine .get ?_
  intro p
  refine .bind (opensAtMost_alternatives hsym _) ?_
  intro others
  exact .bind opensAtMost_endOfUnion fun _ => .build _

theorem opensAtMost_groupWith (hsym : OpensAtMost level sym) :
    OpensAtMost (level + 1) (Parser.groupWith sym) := by
  refine .get ?_
  intro p
  refine .bind .consume fun _ => .group (opensAtMost_unionWith hsym) ?_
  intro f
  refine .peek ?_
  intro c
  refine .ite ?_ (.fail _)
  exact .bind .consume fun _ => .pure f

theorem opensAtMost_symbolWithin (level : Nat) :
    OpensAtMost level (Parser.symbolWithin level) := by
  induction level with
  | zero => exact opensAtMost_symbolWith (.fail _)
  | succ level ih => exact opensAtMost_symbolWith (opensAtMost_groupWith ih)

end Rules

/-- The rule of a category leaves at most as many groups open as it may nest. -/
theorem Category.opensAtMost_rule (x : Category) (level : Nat) :
    OpensAtMost level (x.rule level) := by
  have hsym := opensAtMost_symbolWithin level
  cases x with
  | symbol => exact hsym
  | kleene => exact opensAtMost_kleeneWith hsym
  | concat => exact opensAtMost_concatWith hsym
  | union => exact opensAtMost_unionWith hsym

end RegexAutomata.Regex
