/-
A parser that is asked anything.

The rules of a parser may be called in any order, at any position, and go on after failures. What
holds at any time is `Parser.Within`: the parser stands in its text, and no more groups are open
than may be. Each call keeps it, reads on and links only states that it has created
(`Parser.Keeps`).

* `built_rule` — a rule that succeeds has built the expression of the text that it has read;
* `settles_rule`, `settles_parse` — what a rule does, whether it fails or not;
* `Call.keeps_perform`, `Call.succeeds_perform` — what one call does;
* `Call.keeps_after`, `calls_invariant` — what any calls do, and what holds after them.
-/
import RegexAutomata.Proofs.Regex.Depth
import RegexAutomata.Proofs.Regex.Scan
import RegexAutomata.Proofs.Regex.Shape
import RegexAutomata.Regex.Call

namespace RegexAutomata.Regex

open Nfa (Fragment Since)

variable {x : Category} {k : Nat} {p q : Parser} {f : Fragment} {e : ParseError}

/-! ### Rules that succeed -/

namespace Category

/-- The rule of a category reads texts of the category. -/
theorem parses_rule (x : Category) (k : Nat) : Parses x k (x.rule k) := by
  have hsym := parses_symbolWithin k
  cases x with
  | symbol => exact hsym
  | kleene => exact parses_kleeneWith hsym
  | concat => exact parses_concatWith hsym
  | union => exact parses_unionWith hsym

/-- The rule of a category agrees with a scanner in as many groups as the rule may not open. -/
theorem exists_agrees_rule (x : Category) (hk : k ≤ maxDepth) (p : Parser) :
    ∃ s : Scanner, ∃ ends, Agrees (x.rule k) p (s.on p) ends ∧
      (x ≠ .kleene → ∀ s' q, ends s' q → Follows x q.rest) := by
  have hsym : Scans .symbol (List.replicate (maxDepth - k) 0) (Parser.symbolWithin k) := by
    refine scans_symbolWithin ?_
    rw [List.length_replicate]
    omega
  cases x with
  | symbol => exact ⟨_, _, hsym p, fun _ _ _ h => h.follows⟩
  | kleene => exact ⟨_, _, agrees_kleeneWith hsym p, fun h => absurd rfl h⟩
  | concat => exact ⟨_, _, scans_concatWith hsym p, fun _ _ _ h => h.follows⟩
  | union => exact ⟨_, _, scans_unionWith hsym p, fun _ _ _ h => h.follows⟩

end Category

/-- A rule has read a text of its category and has built the fragment of its expression. -/
def Built (x : Category) (k : Nat) (p : Parser) (f : Fragment) (q : Parser) : Prop :=
  ∃ t e, Derives p.nfa.alphabet x k t e ∧ p.rest = t ++ q.rest ∧ f = (e.compile p.nfa).1 ∧
    q = p.moved t q.rest (e.compile p.nfa).2

/-- Behind a text of its category, a rule has built the expression of the text if no more of the
category follows. -/
theorem built_of_follows (hx : x.rule k p = .ok f q) (hfollows : Follows x q.rest) :
    Built x k p f q := by
  have hparses := x.parses_rule k p 0 (Nat.zero_le _)
  rw [Does, Ensures, hx] at hparses
  obtain ⟨⟨-, -, t, ⟨e, he⟩, hrest⟩, -⟩ := hparses
  have hreads := (reads_of_derives he).1 p q.rest rfl hrest hfollows
  rw [hx] at hreads
  obtain ⟨hf, hq⟩ := EStateM.Result.ok.inj hreads
  exact ⟨t, e, he, hrest, hf, hq⟩

/-- A star may follow a starred symbol, but then it was not read as a part of it. -/
theorem built_kleene (hx : Category.kleene.rule k p = .ok f q) : Built .kleene k p f q := by
  have hrule : Category.kleene.rule k p = Parser.kleeneWith (Parser.symbolWithin k) p := rfl
  rw [hrule, Parser.kleeneWith, run_bind] at hx
  cases hsym : Parser.symbolWithin k p with
  | error e s =>
    rw [hsym] at hx
    cases hx
  | ok g s =>
    obtain ⟨t, e, he, hrest, hg, hs⟩ := built_of_follows (x := .symbol) hsym trivial
    rw [hsym] at hx
    change (Parser.peek >>= _) s = _ at hx
    rw [run_peek_bind] at hx
    by_cases hstar : s.rest.head? = some starSign
    · obtain ⟨u, hu⟩ := List.head?_eq_some_iff.mp hstar
      rw [if_pos hstar, run_consume_bind hu] at hx
      change EStateM.Result.ok (Nfa.star g s.nfa).1 (s.moved [starSign] u (Nfa.star g s.nfa).2) =
        .ok f q at hx
      obtain ⟨rfl, rfl⟩ := EStateM.Result.ok.inj hx
      have hnfa : s.nfa = (e.compile p.nfa).2 := by rw [hs, Parser.nfa_moved]
      refine ⟨t ++ [starSign], .star e, .star he, ?_, ?_, ?_⟩
      · rw [hrest, hu, List.append_assoc]
        rfl
      · rw [Expr.compile_star, ← hg, ← hnfa]
      · rw [Expr.compile_star, ← hg, ← hnfa, Parser.rest_moved, ← Parser.moved_moved, ← hs]
    · rw [if_neg hstar] at hx
      obtain ⟨rfl, rfl⟩ := EStateM.Result.ok.inj hx
      exact ⟨t, e, .symbol he, hrest, hg, hs⟩

/-- A rule that succeeds has built the expression of the text that it has read. -/
theorem built_rule (hk : k ≤ maxDepth) (hx : x.rule k p = .ok f q) : Built x k p f q := by
  by_cases hkleene : x = .kleene
  · subst hkleene
    exact built_kleene hx
  · obtain ⟨s, ends, hagrees, hends⟩ := x.exists_agrees_rule hk p
    rw [Agrees, hx] at hagrees
    obtain ⟨s', -, hs'⟩ := hagrees
    exact built_of_follows hx (hends hkleene s' q hs')

/-! ### What a rule does -/

/-- What every call does, whether it fails or not: it reads on, closes no group that was open before
and opens no more than may be, and it links only states that it has created. -/
structure Parser.Keeps (p q : Parser) : Prop where
  regex_eq : q.regex = p.regex
  exists_read : ∃ t, p.rest = t ++ q.rest ∧ q.position = p.position + t.length
  depth_le : p.depth ≤ q.depth
  depth_le_max : p.depth ≤ maxDepth → q.depth ≤ maxDepth
  alphabet_eq : q.nfa.alphabet = p.nfa.alphabet
  size_le : p.nfa.size ≤ q.nfa.size
  edge : ∀ r a s, p.nfa.Edge r a s → q.nfa.Edge r a s
  edge_or : ∀ r a s, q.nfa.Edge r a s →
    p.nfa.Edge r a s ∨ Since p.nfa.size q.nfa r ∧ Since p.nfa.size q.nfa s

/-- What a rule of a category does that succeeds: it also closes the groups that it opens, reads a
text of the category, and gives a fragment with two new ends. -/
structure Parser.Succeeds (x : Category) (p : Parser) (f : Fragment) (q : Parser) : Prop
    extends Keeps p q where
  depth_eq : q.depth = p.depth
  exists_derives : ∃ t e, Derives p.nfa.alphabet x (maxDepth - p.depth) t e ∧
    p.rest = t ++ q.rest ∧ q.position = p.position + t.length
  entry_ne_exit : f.entry ≠ f.exit
  entry : Since p.nfa.size q.nfa f.entry
  exit : Since p.nfa.size q.nfa f.exit

namespace Parser

variable {labels : Symbol → Prop}

theorem Keeps.refl (p : Parser) : p.Keeps p where
  regex_eq := rfl
  exists_read := ⟨[], rfl, rfl⟩
  depth_le := Nat.le_refl _
  depth_le_max h := h
  alphabet_eq := rfl
  size_le := Nat.le_refl _
  edge _ _ _ h := h
  edge_or _ _ _ h := .inl h

/-- A parser that reads on while its automaton grows. -/
theorem Keeps.of_grows (hregex : q.regex = p.regex)
    (hread : ∃ t, p.rest = t ++ q.rest ∧ q.position = p.position + t.length)
    (hdepth : p.depth ≤ q.depth) (hmax : p.depth ≤ maxDepth → q.depth ≤ maxDepth)
    (hgrows : Nfa.Grows labels p.nfa.size p.nfa q.nfa) : p.Keeps q where
  regex_eq := hregex
  exists_read := hread
  depth_le := hdepth
  depth_le_max := hmax
  alphabet_eq := hgrows.alphabet_eq
  size_le := hgrows.size_le
  edge _ _ _ := hgrows.edge
  edge_or _ _ _ := hgrows.edge_or

theorem Keeps.moved {c : CodePoint} {u : Text} (hrest : p.rest = c :: u) :
    p.Keeps (p.moved [c] u p.nfa) := by
  have hgrows : Nfa.Grows (fun _ => True) p.nfa.size p.nfa p.nfa := .refl
  exact .of_grows rfl ⟨[c], hrest, rfl⟩ (Nat.le_refl _) (fun h => h) hgrows

/-- The ends of the automaton make no difference. -/
theorem Keeps.withEnds (h : p.Keeps q) (start finish : Int) :
    p.Keeps { q with nfa := { q.nfa with start, finish } } :=
  ⟨h.regex_eq, h.exists_read, h.depth_le, h.depth_le_max, h.alphabet_eq, h.size_le, h.edge,
    h.edge_or⟩

theorem Succeeds.withEnds (h : p.Succeeds x f q) (start finish : Int) :
    p.Succeeds x f { q with nfa := { q.nfa with start, finish } } :=
  ⟨h.toKeeps.withEnds start finish, h.depth_eq, h.exists_derives, h.entry_ne_exit, h.entry, h.exit⟩

/-- No category has the empty text. -/
theorem Succeeds.position_lt (h : p.Succeeds x f q) : p.position < q.position := by
  obtain ⟨t, e, he, -, hposition⟩ := h.exists_derives
  have hlength := List.length_pos_of_ne_nil he.ne_nil
  omega

end Parser

/-- A scanner never finds that something stands beyond a union, wherever it starts. -/
theorem Scanner.on_ne_beyondUnion {s : Scanner} (h : s.on p = .error e) (c : CodePoint) :
    e.cause ≠ .beyondUnion c := by
  intro hcause
  rw [on] at h
  cases hrun : s.run p.nfa.alphabet p.position p.rest with
  | ok =>
    rw [hrun] at h
    cases h
  | error found =>
    obtain ⟨cause, i⟩ := found
    rw [hrun] at h
    cases h
    subst hcause
    exact run_ne_beyondUnion p.rest c i hrun

/-- What is said of the result of a rule of a category. -/
def Settles (x : Category) (p : Parser) : EStateM.Result ParseError Parser Fragment → Prop
  | .ok f q => p.Succeeds x f q
  | .error e q => p.Keeps q ∧ ∀ c, e.cause ≠ .beyondUnion c

/-- A rule that fails. -/
theorem keeps_rule (hx : x.rule (maxDepth - p.depth) p = .error e q) : p.Keeps q := by
  have hparses := x.parses_rule (maxDepth - p.depth) p p.nfa.size (Nat.le_refl _)
  rw [Does, Ensures, hx] at hparses
  have hopens := x.opensAtMost_rule (maxDepth - p.depth) p
  rw [Ensures, hx] at hopens
  exact .of_grows hparses.regex_eq hparses.exists_read hparses.depth_le (by omega) hparses.grows

/-- A rule that succeeds. -/
theorem succeeds_rule (hx : x.rule (maxDepth - p.depth) p = .ok f q) : p.Succeeds x f q := by
  obtain ⟨t, e, he, hrest, rfl, hq⟩ := built_rule (Nat.sub_le _ _) hx
  obtain ⟨hgrows, habove⟩ := e.growsTo_compile (Nat.le_refl p.nfa.size)
  have hnfa : q.nfa = (e.compile p.nfa).2 := by rw [hq, Parser.nfa_moved]
  have hposition : q.position = p.position + t.length := by rw [hq]; rfl
  have hdepth : q.depth = p.depth := by rw [hq]; rfl
  have hregex : q.regex = p.regex := by rw [hq]; rfl
  rw [← hnfa] at hgrows habove
  exact {
    toKeeps := .of_grows hregex ⟨t, hrest, hposition⟩ hdepth.ge (by omega) hgrows
    depth_eq := hdepth
    exists_derives := ⟨t, e, he, hrest, hposition⟩
    entry_ne_exit := e.entry_ne_exit_compile p.nfa
    entry := ⟨habove.le_entry, habove.holds.entry.2⟩
    exit := ⟨habove.le_exit, habove.holds.exit.2⟩ }

theorem settles_rule (x : Category) (p : Parser) :
    Settles x p (x.rule (maxDepth - p.depth) p) := by
  cases hx : x.rule (maxDepth - p.depth) p with
  | ok f q => exact succeeds_rule hx
  | error e q =>
    obtain ⟨s, ends, hagrees, -⟩ := x.exists_agrees_rule (Nat.sub_le maxDepth p.depth) p
    rw [Agrees, hx] at hagrees
    exact ⟨keeps_rule hx, Scanner.on_ne_beyondUnion hagrees⟩

/-! ### Whole expressions -/

theorem endOfText_of_nil (hrest : p.rest = []) : Parser.endOfText p = .ok () p := by
  rw [Parser.endOfText, run_peek_bind, hrest]
  rfl

theorem endOfText_of_cons {c : CodePoint} {u : Text} (hrest : p.rest = c :: u) :
    Parser.endOfText p = .error ⟨.trailing c, p.position, p.regex⟩ p := by
  rw [Parser.endOfText, run_peek_bind, hrest]
  rfl

/-- Where a union ends with the text, a whole expression was read. -/
theorem parse_of_nil (hunion : Parser.union p = .ok f q) (hrest : q.rest = []) :
    Parser.parse p = .ok f { q with nfa := { q.nfa with start := f.entry, finish := f.exit } } := by
  rw [Parser.parse, run_bind_of_ok hunion, run_bind_of_ok (endOfText_of_nil hrest)]
  rfl

theorem parse_of_cons {c : CodePoint} {u : Text} (hunion : Parser.union p = .ok f q)
    (hrest : q.rest = c :: u) :
    Parser.parse p = .error ⟨.trailing c, q.position, q.regex⟩ q := by
  rw [Parser.parse, run_bind_of_ok hunion, run_bind, endOfText_of_cons hrest]

/-- A whole expression is a union, behind which the text may go on where it should not. -/
theorem settles_parse (p : Parser) : Settles .union p (Parser.parse p) := by
  have hunion : Settles .union p (Parser.union p) := settles_rule .union p
  cases hx : Parser.union p with
  | error e q =>
    have hparse : Parser.parse p = .error e q := by rw [Parser.parse, run_bind, hx]
    rw [hparse, ← hx]
    exact hunion
  | ok f q =>
    rw [hx] at hunion
    have hsucceeds : p.Succeeds .union f q := hunion
    cases hrest : q.rest with
    | nil =>
      rw [parse_of_nil hx hrest]
      exact hsucceeds.withEnds f.entry f.exit
    | cons c u =>
      rw [parse_of_cons hx hrest]
      exact ⟨hsucceeds.toKeeps, by simp⟩

/-! ### What a call does -/

namespace Call

/-- What a call reads, if it calls a rule of the grammar. -/
def category? : Call → Option Category
  | symbol => some .symbol
  | kleene => some .kleene
  | concat => some .concat
  | union => some .union
  | parse => some .union
  | _ => none

/-- The parser after some calls, whether they fail or not. -/
def after (p : Parser) : List Call → Parser
  | [] => p
  | call :: rest => after (call.perform p).2 rest

/-- What is made of the result of a rule. -/
def ofResult : EStateM.Result ParseError Parser Fragment → Except ParseError Reply × Parser
  | .ok f q => (.ok (.fragment f), q)
  | .error e q => (.error e, q)

variable {call : Call}

theorem perform_of_run {r : Rule Fragment} (hrun : call.run = do return .fragment (← r))
    (p : Parser) : call.perform p = ofResult (r p) := by
  rw [perform, hrun, run_bind]
  cases r p <;> rfl

/-- A call of a rule of the grammar. -/
theorem exists_settles (hx : call.category? = some x) (p : Parser) :
    ∃ r, Settles x p r ∧ call.perform p = ofResult r := by
  cases call with
  | peek => cases hx
  | consume => cases hx
  | edges => cases hx
  | symbol =>
    cases hx
    exact ⟨_, settles_rule .symbol p, perform_of_run (r := Parser.symbol) rfl p⟩
  | kleene =>
    cases hx
    exact ⟨_, settles_rule .kleene p, perform_of_run (r := Parser.kleene) rfl p⟩
  | concat =>
    cases hx
    exact ⟨_, settles_rule .concat p, perform_of_run (r := Parser.concat) rfl p⟩
  | union =>
    cases hx
    exact ⟨_, settles_rule .union p, perform_of_run (r := Parser.union) rfl p⟩
  | parse =>
    cases hx
    exact ⟨_, settles_parse p, perform_of_run (r := Parser.parse) rfl p⟩

/-- Any other call succeeds and reads one code point at most. -/
theorem exists_reply (hx : call.category? = none) (p : Parser) :
    ∃ reply q, call.perform p = (.ok reply, q) ∧ p.Keeps q ∧ q.depth = p.depth := by
  cases call with
  | peek => exact ⟨_, p, rfl, .refl p, rfl⟩
  | edges => exact ⟨_, p, rfl, .refl p, rfl⟩
  | consume =>
    cases hrest : p.rest with
    | nil =>
      have hconsume : Parser.consume p = .ok none p := by rw [Parser.consume, hrest]
      refine ⟨.point none, p, ?_, .refl p, rfl⟩
      rw [perform, run, run_bind_of_ok hconsume]
      rfl
    | cons c u =>
      have hconsume : Parser.consume p = .ok (some c) (p.moved [c] u p.nfa) := by
        rw [Parser.consume, hrest]
        rfl
      refine ⟨.point (some c), p.moved [c] u p.nfa, ?_, .moved hrest, rfl⟩
      rw [perform, run, run_bind_of_ok hconsume]
      rfl
  | symbol => cases hx
  | kleene => cases hx
  | concat => cases hx
  | union => cases hx
  | parse => cases hx

/-- Every call reads on and links new states only, and none finds that something stands beyond a
union. -/
theorem keeps_perform (call : Call) (p : Parser) :
    p.Keeps (call.perform p).2 ∧
      (∀ reply, (call.perform p).1 = .ok reply → (call.perform p).2.depth = p.depth) ∧
      ∀ e c, (call.perform p).1 = .error e → e.cause ≠ .beyondUnion c := by
  cases hx : call.category? with
  | none =>
    obtain ⟨reply, q, hperform, hkeeps, hdepth⟩ := exists_reply hx p
    rw [hperform]
    exact ⟨hkeeps, fun _ _ => hdepth, nofun⟩
  | some x =>
    obtain ⟨r, hr, hperform⟩ := exists_settles hx p
    rw [hperform]
    cases r with
    | ok f q =>
      have hsucceeds : p.Succeeds x f q := hr
      exact ⟨hsucceeds.toKeeps, fun _ _ => hsucceeds.depth_eq, nofun⟩
    | error e q =>
      refine ⟨hr.1, nofun, fun e' c h => ?_⟩
      cases h
      exact hr.2 c

/-- A rule of the grammar that is called gives a fragment, if it succeeds. -/
theorem succeeds_perform {reply : Reply} (hx : call.category? = some x)
    (hreply : (call.perform p).1 = .ok reply) :
    ∃ f, reply = .fragment f ∧ p.Succeeds x f (call.perform p).2 := by
  obtain ⟨r, hr, hperform⟩ := exists_settles hx p
  rw [hperform] at hreply ⊢
  cases r with
  | ok f q =>
    cases hreply
    exact ⟨f, rfl, hr⟩
  | error e q => cases hreply

end Call

/-! ### Any calls -/

/-- A parser stands somewhere in its text, and no more groups are open than may be. -/
structure Parser.Within (regex : Text) (alphabet : Alphabet) (p : Parser) : Prop where
  regex_eq : p.regex = regex
  alphabet_eq : p.nfa.alphabet = alphabet
  rest_eq : p.rest = regex.drop p.position
  position_le : p.position ≤ regex.length
  depth_le : p.depth ≤ maxDepth

variable {regex : Text} {alphabet : Alphabet}

theorem Parser.within_ofNfa (regex : Text) (n : Nfa) :
    (Parser.ofNfa regex n).Within regex n.alphabet :=
  ⟨rfl, rfl, rfl, Nat.zero_le _, Nat.zero_le _⟩

namespace Parser.Keeps

theorem position_le (h : p.Keeps q) : p.position ≤ q.position := by
  obtain ⟨t, -, hposition⟩ := h.exists_read
  omega

theorem trans {r : Parser} (h : p.Keeps q) (h' : q.Keeps r) : p.Keeps r where
  regex_eq := h'.regex_eq.trans h.regex_eq
  exists_read := by
    obtain ⟨t, ht, hposition⟩ := h.exists_read
    obtain ⟨u, hu, hposition'⟩ := h'.exists_read
    refine ⟨t ++ u, ?_, ?_⟩
    · rw [ht, hu, List.append_assoc]
    · rw [hposition', hposition, List.length_append, Nat.add_assoc]
  depth_le := h.depth_le.trans h'.depth_le
  depth_le_max := fun hp => h'.depth_le_max (h.depth_le_max hp)
  alphabet_eq := h'.alphabet_eq.trans h.alphabet_eq
  size_le := h.size_le.trans h'.size_le
  edge := fun s a t he => h'.edge s a t (h.edge s a t he)
  edge_or := by
    intro s a t he
    have hsize := h.size_le
    have hsize' := h'.size_le
    simp only [Since]
    rcases h'.edge_or s a t he with he | ⟨hs, ht⟩
    · refine (h.edge_or s a t he).imp_right ?_
      rintro ⟨hs, ht⟩
      simp only [Since] at hs ht
      omega
    · simp only [Since] at hs ht
      omega

theorem within (h : p.Keeps q) (hp : p.Within regex alphabet) : q.Within regex alphabet := by
  obtain ⟨t, ht, hposition⟩ := h.exists_read
  have hrest := hp.rest_eq
  have hlength := congrArg List.length (ht.symm.trans hrest)
  rw [List.length_append, List.length_drop] at hlength
  have hle := hp.position_le
  refine ⟨h.regex_eq.trans hp.regex_eq, h.alphabet_eq.trans hp.alphabet_eq, ?_, ?_,
    h.depth_le_max hp.depth_le⟩
  · rw [hposition, ← List.drop_drop, ← hrest, ht, List.drop_left]
  · omega

end Parser.Keeps

namespace Call

theorem keeps_after (p : Parser) (calls : List Call) : p.Keeps (after p calls) := by
  induction calls generalizing p with
  | nil => exact .refl p
  | cons call rest ih => exact (call.keeps_perform p).1.trans (ih _)

end Call

/-- The text that was read between two positions. -/
theorem Parser.Within.drop_take {t : Text} (hp : p.Within regex alphabet)
    (hrest : p.rest = t ++ q.rest) (hposition : q.position = p.position + t.length) :
    (regex.take q.position).drop p.position = t := by
  rw [List.drop_take, ← hp.rest_eq, hrest, hposition, Nat.add_sub_cancel_left, List.take_left]

/-- A parser over any text and any automaton, after any calls, whether they failed or not: it stands
in its text, with no more open groups than may be, and goes on only. A further call that succeeds
leaves as many groups open as there were, and none finds that something stands beyond a union. A
rule of the grammar that succeeds has read a text of its category, which is not empty and nests
groups only as deep as is left, and gives a fragment between two different states that it has
created. -/
theorem calls_invariant (regex : Text) (n : Nfa) (calls : List Call) :
    let p := Call.after (.ofNfa regex n) calls
    p.Within regex n.alphabet ∧ (∀ more, p.Keeps (Call.after p more)) ∧
      ∀ call : Call,
        let outcome := (call.perform p).1
        let q := (call.perform p).2
        p.Keeps q ∧
        (∀ reply, outcome = .ok reply → q.depth = p.depth) ∧
        (∀ e c, outcome = .error e → e.cause ≠ .beyondUnion c) ∧
        ∀ x reply, call.category? = some x → outcome = .ok reply →
          ∃ f, reply = .fragment f ∧ f.entry ≠ f.exit ∧
            Since p.nfa.size q.nfa f.entry ∧ Since p.nfa.size q.nfa f.exit ∧
            p.position < q.position ∧
            ∃ e, Derives n.alphabet x (maxDepth - p.depth)
              ((regex.take q.position).drop p.position) e := by
  intro p
  have hwithin : p.Within regex n.alphabet :=
    (Call.keeps_after _ calls).within (Parser.within_ofNfa regex n)
  refine ⟨hwithin, Call.keeps_after p, ?_⟩
  intro call outcome q
  obtain ⟨hkeeps, hdepth, hcause⟩ := call.keeps_perform p
  refine ⟨hkeeps, hdepth, hcause, fun x reply hx hreply => ?_⟩
  obtain ⟨f, hf, hsucceeds⟩ := Call.succeeds_perform hx hreply
  obtain ⟨t, e, he, hrest, hposition⟩ := hsucceeds.exists_derives
  refine ⟨f, hf, hsucceeds.entry_ne_exit, hsucceeds.entry, hsucceeds.exit,
    hsucceeds.position_lt, e, ?_⟩
  rw [hwithin.drop_take hrest hposition, ← hwithin.alphabet_eq]
  exact he

end RegexAutomata.Regex
