/-
Reading goes the same way whatever the automaton remembers.

A rule is `Oblivious` if forgetting before it runs is the same as forgetting after it has run: it
gives the same fragment or the same error, and reads and builds the same. Rules that are put
together from oblivious rules are oblivious, so all rules are.

* `oblivious_symbolWithin` — symbols, by induction on how many groups may still be opened;
* `oblivious_parse`, `parseInto_forget` — whole expressions.
-/
import RegexAutomata.Proofs.Nfa.Forget
import RegexAutomata.Proofs.Regex.Advance

namespace RegexAutomata.Regex

open Nfa (Fragment)

variable {α β : Type}

/-- The parser with an automaton that has nothing remembered. -/
def Parser.forget (p : Parser) : Parser := { p with nfa := p.nfa.forget }

/-- What a rule gives, with nothing remembered by the automaton. -/
def forgetResult : EStateM.Result ParseError Parser α → EStateM.Result ParseError Parser α
  | .ok a p => .ok a p.forget
  | .error e p => .error e p.forget

/-- Forgetting before a rule is the same as forgetting after it. -/
def Oblivious (r : Rule α) : Prop := ∀ p : Parser, r p.forget = forgetResult (r p)

namespace Oblivious

variable {r : Rule α} {f : α → Rule β}

theorem bind (hr : Oblivious r) (hf : ∀ a, Oblivious (f a)) : Oblivious (r >>= f) := by
  intro p
  rw [run_bind, run_bind, hr p]
  cases r p with
  | ok a q => exact hf a q
  | error e q => rfl

theorem pure (a : α) : Oblivious (Pure.pure a) := by
  intro p
  rfl

theorem fail (cause : Cause) : Oblivious (α := α) (Parser.fail cause) := by
  intro p
  rfl

/-- A rule may look at the parser if it does not look at what the automaton remembers. -/
theorem get {g : Parser → Rule α} (hsame : ∀ p, g p.forget = g p) (hg : ∀ p, Oblivious (g p)) :
    Oblivious (MonadState.get >>= g) := by
  intro p
  show g p.forget p.forget = forgetResult (g p p)
  rw [hsame]
  exact hg p p

theorem peek {g : Option CodePoint → Rule α} (hg : ∀ c, Oblivious (g c)) :
    Oblivious (Parser.peek >>= g) := by
  intro p
  exact hg p.rest.head? p

theorem consume : Oblivious (discard Parser.consume) := by
  intro p
  obtain ⟨regex, rest, position, depth, nfa⟩ := p
  cases rest <;> rfl

theorem setDepth (d : Nat → Nat) : Oblivious (Parser.setDepth d) := by
  intro p
  rfl

theorem build {b : Nfa → Fragment × Nfa} (hb : Nfa.Blind b) : Oblivious (Parser.build b) := by
  intro p
  have hp : b p.forget.nfa = ((b p.nfa).1, (b p.nfa).2.forget) := hb p.nfa
  simp only [Parser.build, hp]
  rfl

theorem ite {P : Prop} [Decidable P] {r' : Rule α} (hr : Oblivious r) (hr' : Oblivious r') :
    Oblivious (if P then r else r') := by
  split
  · exact hr
  · exact hr'

end Oblivious

section Rules

variable {sym : Rule Fragment}

theorem oblivious_literal (c : CodePoint) : Oblivious (Parser.literal c) := by
  refine .get (fun p => rfl) ?_
  intro p
  refine .ite (.fail _) ?_
  exact .bind .consume fun _ => .build (.literal [c])

theorem oblivious_symbolWith {group : Rule Fragment} (hgroup : Oblivious group) :
    Oblivious (Parser.symbolWith group) := by
  refine .peek ?_
  rintro (_ | c)
  · exact .fail _
  · exact .ite hgroup (oblivious_literal c)

theorem oblivious_kleeneWith (hsym : Oblivious sym) : Oblivious (Parser.kleeneWith sym) := by
  refine .bind hsym ?_
  intro f
  refine .peek ?_
  intro c
  refine .ite ?_ (.pure f)
  exact .bind .consume fun _ => .build (.star f)

theorem oblivious_concatRest (hsym : Oblivious sym) (fuel : Nat) (f : Fragment) :
    Oblivious (Parser.concatRest sym fuel f) := by
  induction fuel generalizing f with
  | zero => exact .pure f
  | succ fuel ih =>
    refine .peek ?_
    intro c
    refine .ite (.pure f) ?_
    refine .bind (oblivious_kleeneWith hsym) ?_
    intro g
    exact .bind (.build (.join f g)) ih

theorem oblivious_concatWith (hsym : Oblivious sym) : Oblivious (Parser.concatWith sym) := by
  refine .bind (oblivious_kleeneWith hsym) ?_
  intro f
  exact .get (fun p => rfl) fun p => oblivious_concatRest hsym p.rest.length f

theorem oblivious_alternatives (hsym : Oblivious sym) (fuel : Nat) :
    Oblivious (Parser.alternatives sym fuel) := by
  induction fuel with
  | zero => exact .pure []
  | succ fuel ih =>
    refine .peek ?_
    intro c
    refine .ite ?_ (.pure [])
    refine .bind .consume fun _ => .bind (oblivious_concatWith hsym) ?_
    intro f
    exact .bind ih fun others => .pure (f :: others)

theorem oblivious_endOfUnion : Oblivious Parser.endOfUnion := by
  refine .peek ?_
  rintro (_ | c)
  · exact .pure ()
  · exact .ite (.pure ()) (.fail _)

theorem oblivious_unionWith (hsym : Oblivious sym) : Oblivious (Parser.unionWith sym) := by
  refine .bind (oblivious_concatWith hsym) ?_
  intro f
  refine .get (fun p => rfl) ?_
  intro p
  refine .bind (oblivious_alternatives hsym _) ?_
  intro others
  exact .bind oblivious_endOfUnion fun _ => .build (.chooseAll f others)

theorem oblivious_groupWith (hsym : Oblivious sym) : Oblivious (Parser.groupWith sym) := by
  refine .get (fun p => rfl) ?_
  intro p
  refine .bind .consume fun _ => .bind (.setDepth _) fun _ => .bind (oblivious_unionWith hsym) ?_
  intro f
  refine .bind (.setDepth _) fun _ => .peek ?_
  intro c
  refine .ite ?_ (.fail _)
  exact .bind .consume fun _ => .pure f

theorem oblivious_symbolWithin (level : Nat) : Oblivious (Parser.symbolWithin level) := by
  induction level with
  | zero => exact oblivious_symbolWith (.fail _)
  | succ level ih => exact oblivious_symbolWith (oblivious_groupWith ih)

end Rules

theorem oblivious_union : Oblivious Parser.union := by
  refine .get (fun p => rfl) ?_
  intro p
  exact oblivious_unionWith (oblivious_symbolWithin _)

theorem oblivious_endOfText : Oblivious Parser.endOfText := by
  refine .peek ?_
  rintro (_ | c)
  · exact .pure ()
  · exact .fail _

theorem oblivious_parse : Oblivious Parser.parse := by
  refine .bind oblivious_union ?_
  intro f
  have hfinish : Oblivious (Parser.finish f) := by
    intro p
    rfl
  exact .bind oblivious_endOfText fun _ => .bind hfinish fun _ => .pure f

/-- Reading into an automaton gives the same and builds the same whatever was remembered. -/
theorem parseInto_forget (regex : Text) (n : Nfa) :
    parseInto regex n.forget = ((parseInto regex n).1, (parseInto regex n).2.forget) := by
  have hparse : Parser.parse (.ofNfa regex n.forget)
      = forgetResult (Parser.parse (.ofNfa regex n)) := oblivious_parse (.ofNfa regex n)
  rw [parseInto, parseInto, hparse]
  rcases Parser.parse (.ofNfa regex n) with ⟨_, _⟩ | ⟨_, _⟩ <;> rfl

end RegexAutomata.Regex
