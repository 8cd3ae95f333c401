/-
Reading an expression in one pass.

A `Scanner` goes through the text of an expression from left to right. All that it keeps is what it
has read last and where the groups were opened that are still open; it builds nothing and never
looks ahead.

* `agrees_symbolWithin`, `agrees_parse` — each rule comes as far as the scanner does, and finds the
  same errors;
* `map_toNfa` — so an automaton is built exactly if the scanner comes to the end of the text.
-/
import RegexAutomata.Proofs.Regex.Reading

namespace RegexAutomata.Regex

open Nfa (Fragment)

variable {α β : Type}

/-- What a scanner has read last. -/
inductive Mode where
  /-- nothing yet, the sign for unions, or a parenthesis that opens a group -/
  | need
  /-- a literal, or a parenthesis that closes a group -/
  | atom
  | star
deriving DecidableEq

/-- A scanner between two code points. -/
structure Scanner where
  mode : Mode
  /-- where the open groups were opened, the innermost first -/
  opened : List Nat
deriving DecidableEq

namespace Scanner

/-- The scanner before the first code point. -/
def initial : Scanner := ⟨.need, []⟩

/-- Reads the code point at a position as the start of a symbol. -/
def symbol (alphabet : Alphabet) (s : Scanner) (i : Nat) (c : CodePoint) :
    Except Cause Scanner :=
  if c = openGroup then
    if maxDepth ≤ s.opened.length then .error .nestingTooDeep
    else .ok ⟨.need, i :: s.opened⟩
  else if isOperator c = false ∧ [c] ∈ alphabet then .ok ⟨.atom, s.opened⟩
  else .error (.notInAlphabet c)

/-- Reads the code point at a position. -/
def step (alphabet : Alphabet) (s : Scanner) (i : Nat) (c : CodePoint) : Except Cause Scanner :=
  if s.mode = .need then s.symbol alphabet i c
  else if c = unionSign then .ok ⟨.need, s.opened⟩
  else if c = closeGroup then
    match s.opened with
    | [] => .error (.trailing c)
    | _ :: opened => .ok ⟨.atom, opened⟩
  else if c = starSign then
    if s.mode = .atom then .ok ⟨.star, s.opened⟩ else .error (.notInAlphabet c)
  else s.symbol alphabet i c

/-- Whether the text may end here, and what is wrong if not. -/
def finish (s : Scanner) : Except Cause Unit :=
  if s.mode = .need then .error .unexpectedEnd
  else
    match s.opened with
    | [] => .ok ()
    | i :: _ => .error (.unclosedGroup i)

/-- Reads what is left of an expression from a position on, up to the first error. -/
def run (alphabet : Alphabet) (s : Scanner) (i : Nat) : Text → Except (Cause × Nat) Unit
  | [] =>
    match s.finish with
    | .ok () => .ok ()
    | .error cause => .error (cause, i)
  | c :: rest =>
    match s.step alphabet i c with
    | .ok s => run alphabet s (i + 1) rest
    | .error cause => .error (cause, i)

/-- What a scanner finds in what is left of the text of a parser. -/
def on (s : Scanner) (p : Parser) : Except ParseError Unit :=
  (s.run p.nfa.alphabet p.position p.rest).mapError fun (cause, i) => ⟨cause, i, p.regex⟩

end Scanner

/-- Whether an expression has an error, and which is the first. -/
def scan (alphabet : Alphabet) (regex : Text) : Except ParseError Unit :=
  (Scanner.initial.run alphabet 0 regex).mapError fun (cause, i) => ⟨cause, i, regex⟩

namespace Scanner

variable {s s' : Scanner} {p : Parser} {c : CodePoint} {u : Text} {opened : List Nat}

theorem on_of_step_eq_ok (hrest : p.rest = c :: u)
    (hstep : s.step p.nfa.alphabet p.position c = .ok s') {n : Nfa}
    (hn : n.alphabet = p.nfa.alphabet) : s.on p = s'.on (p.moved [c] u n) := by
  rw [on, hrest, run, hstep, ← hn]
  rfl

theorem on_of_step_eq_error {cause : Cause} (hrest : p.rest = c :: u)
    (hstep : s.step p.nfa.alphabet p.position c = .error cause) :
    s.on p = .error ⟨cause, p.position, p.regex⟩ := by
  rw [on, hrest, run, hstep]
  rfl

theorem on_of_finish_eq_error {cause : Cause} (hrest : p.rest = [])
    (hfinish : s.finish = .error cause) : s.on p = .error ⟨cause, p.position, p.regex⟩ := by
  rw [on, hrest, run, hfinish]
  rfl

theorem step_need (opened : List Nat) (alphabet : Alphabet) (i : Nat) (c : CodePoint) :
    (⟨.need, opened⟩ : Scanner).step alphabet i c =
      (⟨.need, opened⟩ : Scanner).symbol alphabet i c := rfl

theorem step_unionSign (hs : s.mode ≠ .need) (alphabet : Alphabet) (i : Nat) :
    s.step alphabet i unionSign = .ok ⟨.need, s.opened⟩ := by
  rw [step, if_neg hs, if_pos rfl]

theorem step_closeGroup (hs : s.mode ≠ .need) (alphabet : Alphabet) (i : Nat) :
    s.step alphabet i closeGroup =
      match s.opened with
      | [] => .error (.trailing closeGroup)
      | _ :: opened => .ok ⟨.atom, opened⟩ := by
  rw [step, if_neg hs, if_neg (by decide), if_pos rfl]

/-- An error at the end of the text. -/
theorem run_nil_eq_error {alphabet : Alphabet} {i j : Nat} {cause : Cause}
    (h : s.run alphabet i [] = .error (cause, j)) : s.finish = .error cause ∧ j = i := by
  rw [run] at h
  cases hfinish : s.finish with
  | ok =>
    rw [hfinish] at h
    cases h
  | error cause =>
    rw [hfinish] at h
    cases h
    exact ⟨rfl, rfl⟩

/-- An error is found in the first code point or behind it. -/
theorem run_cons_eq_error {alphabet : Alphabet} {i j : Nat} {cause : Cause}
    (h : s.run alphabet i (c :: u) = .error (cause, j)) :
    (∃ s', s.step alphabet i c = .ok s' ∧ s'.run alphabet (i + 1) u = .error (cause, j)) ∨
      s.step alphabet i c = .error cause ∧ j = i := by
  rw [run] at h
  cases hstep : s.step alphabet i c with
  | ok s' =>
    rw [hstep] at h
    exact .inl ⟨s', rfl, h⟩
  | error cause =>
    rw [hstep] at h
    cases h
    exact .inr ⟨rfl, rfl⟩

/-- What was read last makes no difference where a further symbol has to come. -/
theorem on_eq_need (hs : s.mode ≠ .need) (hend : ¬Parser.endsConcat p.rest.head? = true)
    (hstar : s.mode = .atom → Follows .kleene p.rest) :
    s.on p = (⟨.need, s.opened⟩ : Scanner).on p := by
  cases hrest : p.rest with
  | nil =>
    rw [hrest] at hend
    exact absurd rfl hend
  | cons c u =>
    have hstep (i : Nat) : s.step p.nfa.alphabet i c =
        (⟨.need, s.opened⟩ : Scanner).symbol p.nfa.alphabet i c := by
      rw [hrest] at hend hstar
      simp only [Parser.endsConcat, List.head?_cons, Option.some.injEq, Bool.or_eq_true,
        decide_eq_true_eq, not_or] at hend
      obtain ⟨⟨-, hclose⟩, hunion⟩ := hend
      rw [step, if_neg hs, if_neg hunion, if_neg hclose]
      by_cases hc : c = starSign
      · -- a second star is as wrong as one without a symbol before it
        subst hc
        rw [if_pos rfl, if_neg fun h => hstar h rfl]
        rfl
      · rw [if_neg hc]
        rfl
    rw [on, on, hrest, run, run, hstep, step_need]

/-- What was read last makes no difference where a concatenation ends. -/
theorem on_eq_atom (hs : s.mode ≠ .need) (hend : Parser.endsConcat p.rest.head? = true) :
    s.on p = (⟨.atom, s.opened⟩ : Scanner).on p := by
  have hatom : (⟨.atom, s.opened⟩ : Scanner).mode ≠ .need := by simp
  cases hrest : p.rest with
  | nil => rw [on, on, hrest, run, run, finish, finish, if_neg hs, if_neg hatom]
  | cons c u =>
    rw [hrest] at hend
    simp only [Parser.endsConcat, List.head?_cons, Option.some.injEq, Bool.or_eq_true,
      decide_eq_true_eq] at hend
    rw [on, on, hrest, run, run]
    rcases hend with (h | rfl) | rfl
    · cases h
    · rw [step_closeGroup hs, step_closeGroup hatom]
    · rw [step_unionSign hs, step_unionSign hatom]

end Scanner

/-! ### Rules and scanners -/

/-- A rule agrees with a scanner that finds `x` in what is left of the text: a rule that fails has
found the same error, and where a rule that succeeds has ended, some scanner goes on to find `x`. -/
def Agrees (r : Rule α) (p : Parser) (x : Except ParseError Unit)
    (ends : Scanner → Parser → Prop) : Prop :=
  match r p with
  | .ok _ q => ∃ s : Scanner, x = s.on q ∧ ends s q
  | .error e _ => x = .error e

namespace Agrees

variable {r : Rule α} {f : α → Rule β} {p : Parser} {x : Except ParseError Unit}
  {P Q : Scanner → Parser → Prop}

theorem bind (h : Agrees r p x P) (hf : ∀ a q s, P s q → Agrees (f a) q (s.on q) Q) :
    Agrees (r >>= f) p x Q := by
  rw [Agrees] at h
  rw [Agrees, run_bind]
  cases hr : r p with
  | ok a q =>
    rw [hr] at h
    obtain ⟨s, rfl, hs⟩ := h
    exact hf a q s hs
  | error e q =>
    rw [hr] at h
    exact h

theorem mono (h : Agrees r p x P) (hPQ : ∀ s q, P s q → Q s q) : Agrees r p x Q := by
  rw [Agrees] at h ⊢
  cases hr : r p with
  | ok a q =>
    rw [hr] at h
    obtain ⟨s, hx, hs⟩ := h
    exact ⟨s, hx, hPQ s q hs⟩
  | error e q =>
    rw [hr] at h
    exact h

theorem pure {s : Scanner} (a : α) (hx : x = s.on p) (hs : P s p) :
    Agrees (Pure.pure a) p x P := ⟨s, hx, hs⟩

theorem fail {cause : Cause} (hx : x = .error ⟨cause, p.position, p.regex⟩) :
    Agrees (α := α) (Parser.fail cause) p x P := hx

theorem peek {g : Option CodePoint → Rule α} (h : Agrees (g p.rest.head?) p x P) :
    Agrees (Parser.peek >>= g) p x P := h

theorem get {g : Parser → Rule α} (h : Agrees (g p) p x P) :
    Agrees (MonadState.get >>= g) p x P := h

theorem consume {c : CodePoint} {u : Text} {g : Unit → Rule α} (hrest : p.rest = c :: u)
    (h : Agrees (g ()) (p.moved [c] u p.nfa) x P) :
    Agrees (discard Parser.consume >>= g) p x P := by
  rw [Agrees, run_consume_bind hrest]
  exact h

/-- Building changes nothing that a scanner looks at. -/
theorem build {s : Scanner} {b : Nfa → Fragment × Nfa} {Q : Scanner → Parser → Prop}
    (hx : x = s.on p) (hb : (b p.nfa).2.alphabet = p.nfa.alphabet)
    (hs : Q s (p.moved [] p.rest (b p.nfa).2)) : Agrees (Parser.build b) p x Q := by
  refine ⟨s, ?_, hs⟩
  rw [hx, Scanner.on, ← hb]
  rfl

theorem setDepth {d : Nat → Nat} {g : Unit → Rule α}
    (h : Agrees (g ()) (p.withDepth (d p.depth)) x P) :
    Agrees (Parser.setDepth d >>= g) p x P := h

end Agrees

/-- Where a rule of a category has ended: a symbol is complete, and what follows is not more of the
category. -/
structure Ended (x : Category) (opened : List Nat) (bound : Nat) (s : Scanner) (q : Parser) :
    Prop where
  scanner_eq : s = ⟨.atom, opened⟩
  follows : Follows x q.rest
  length_lt : q.rest.length < bound

/-- Where the rule for starred symbols has ended: behind a star, or behind a symbol without one. -/
structure EndedKleene (opened : List Nat) (bound : Nat) (s : Scanner) (q : Parser) : Prop where
  opened_eq : s.opened = opened
  mode_ne : s.mode ≠ .need
  follows : s.mode = .atom → Follows .kleene q.rest
  length_lt : q.rest.length < bound

/-- A rule of a category agrees with a scanner that needs a symbol. -/
def Scans (x : Category) (opened : List Nat) (r : Rule Fragment) : Prop :=
  ∀ p, Agrees r p ((⟨.need, opened⟩ : Scanner).on p) (Ended x opened p.rest.length)

section Rules

variable {p : Parser} {sym : Rule Fragment} {opened : List Nat} {s : Scanner}

theorem agrees_literal {c : CodePoint} {u : Text} (hrest : p.rest = c :: u) (hc : c ≠ openGroup) :
    Agrees (Parser.literal c) p ((⟨.need, opened⟩ : Scanner).on p)
      (Ended .symbol opened p.rest.length) := by
  rw [Parser.literal]
  refine .get ?_
  by_cases h : (isOperator c || decide ([c] ∉ p.nfa.alphabet)) = true
  · rw [if_pos h]
    refine .fail (Scanner.on_of_step_eq_error hrest ?_)
    rw [Scanner.step_need, Scanner.symbol, if_neg hc, if_neg]
    rintro ⟨hoperator, halphabet⟩
    simp [hoperator, halphabet] at h
  · rw [if_neg h]
    have hstep : (⟨.need, opened⟩ : Scanner).step p.nfa.alphabet p.position c =
        .ok ⟨.atom, opened⟩ := by
      rw [Scanner.step_need, Scanner.symbol, if_neg hc, if_pos (by simpa using h)]
    refine .consume hrest (.build (Scanner.on_of_step_eq_ok hrest hstep rfl) ?_ ⟨rfl, trivial, ?_⟩)
    · exact Nfa.alphabet_literal _ _
    · simp [hrest]

theorem scans_symbolWith {group : Rule Fragment}
    (hgroup : ∀ p u, p.rest = openGroup :: u →
      Agrees group p ((⟨.need, opened⟩ : Scanner).on p) (Ended .symbol opened p.rest.length)) :
    Scans .symbol opened (Parser.symbolWith group) := by
  intro p
  rw [Parser.symbolWith]
  refine .peek ?_
  cases hhead : p.rest.head? with
  | none => exact .fail (Scanner.on_of_finish_eq_error (List.head?_eq_none_iff.mp hhead) rfl)
  | some c =>
    obtain ⟨u, hrest⟩ := List.head?_eq_some_iff.mp hhead
    by_cases hc : c = openGroup
    · subst hc
      exact hgroup p u hrest
    · simp only [if_neg hc]
      exact agrees_literal hrest hc

theorem agrees_kleeneWith (hsym : Scans .symbol opened sym) (p : Parser) :
    Agrees (Parser.kleeneWith sym) p ((⟨.need, opened⟩ : Scanner).on p)
      (EndedKleene opened p.rest.length) := by
  rw [Parser.kleeneWith]
  refine .bind (hsym p) ?_
  rintro f q _ ⟨rfl, -, hlength⟩
  refine .peek ?_
  by_cases hstar : q.rest.head? = some starSign
  · obtain ⟨u, hrest⟩ := List.head?_eq_some_iff.mp hstar
    rw [if_pos hstar]
    have hstep : (⟨.atom, opened⟩ : Scanner).step q.nfa.alphabet q.position starSign =
        .ok ⟨.star, opened⟩ := rfl
    have hon := Scanner.on_of_step_eq_ok (n := q.nfa) hrest hstep rfl
    refine .consume hrest (.build hon (Nfa.alphabet_star _ _) ⟨rfl, by simp, by simp, ?_⟩)
    rw [hrest, List.length_cons] at hlength
    exact Nat.lt_of_succ_lt hlength
  · rw [if_neg hstar]
    exact .pure f rfl ⟨rfl, by simp, fun _ => hstar, hlength⟩

/-- A concatenation goes on until it ends, wherever it has come to. -/
theorem agrees_concatRest (hsym : Scans .symbol opened sym) (fuel : Nat) (f : Fragment)
    (hs : EndedKleene opened (fuel + 1) s p) :
    Agrees (Parser.concatRest sym fuel f) p (s.on p)
      (Ended .concat opened (p.rest.length + 1)) := by
  induction fuel generalizing p s f with
  | zero =>
    have hrest : p.rest = [] := List.length_eq_zero_iff.mp (Nat.lt_one_iff.mp hs.length_lt)
    have hend : Follows .concat p.rest := by
      rw [hrest]
      rfl
    have hon := Scanner.on_eq_atom hs.mode_ne hend
    rw [hs.opened_eq] at hon
    exact .pure f hon ⟨rfl, hend, Nat.lt_succ_self _⟩
  | succ fuel ih =>
    rw [Parser.concatRest]
    refine .peek ?_
    by_cases hend : Parser.endsConcat p.rest.head? = true
    · have hon := Scanner.on_eq_atom hs.mode_ne hend
      rw [hs.opened_eq] at hon
      rw [if_pos hend]
      exact .pure f hon ⟨rfl, hend, Nat.lt_succ_self _⟩
    · rw [if_neg hend, Scanner.on_eq_need hs.mode_ne hend hs.follows, hs.opened_eq]
      refine .bind (agrees_kleeneWith hsym p) ?_
      rintro g q t ht
      refine .bind (P := fun t' q' => t' = t ∧ q'.rest = q.rest)
        (.build rfl (Nfa.alphabet_join _ _ _) ⟨rfl, rfl⟩) ?_
      rintro k q' _ ⟨rfl, hq'⟩
      have hlt := ht.length_lt
      have hle := hs.length_lt
      refine (ih k ⟨ht.opened_eq, ht.mode_ne, ?_, ?_⟩).mono ?_
      · rw [hq']
        exact ht.follows
      · rw [hq']
        omega
      · rintro _ l ⟨rfl, hfollows, hlength⟩
        rw [hq'] at hlength
        exact ⟨rfl, hfollows, by omega⟩

theorem scans_concatWith (hsym : Scans .symbol opened sym) :
    Scans .concat opened (Parser.concatWith sym) := by
  intro p
  rw [Parser.concatWith]
  refine .bind (agrees_kleeneWith hsym p) ?_
  intro f q s hs
  have hlt := hs.length_lt
  refine .get ((agrees_concatRest hsym q.rest.length f
    ⟨hs.opened_eq, hs.mode_ne, hs.follows, Nat.lt_succ_self _⟩).mono ?_)
  rintro _ l ⟨rfl, hfollows, hlength⟩
  exact ⟨rfl, hfollows, by omega⟩

/-- Where a concatenation ends without the sign for unions, a union ends as well. -/
theorem Follows.union {u : Text} (hu : Follows .concat u) (hsign : u.head? ≠ some unionSign) :
    Follows .union u := by
  simpa [Follows, Parser.endsConcat, hsign] using hu

/-- Further alternatives are read until the union ends. -/
theorem agrees_alternatives (hsym : Scans .symbol opened sym) (fuel : Nat)
    (hend : Follows .concat p.rest) (hfuel : p.rest.length ≤ fuel) :
    Agrees (Parser.alternatives sym fuel) p ((⟨.atom, opened⟩ : Scanner).on p)
      (Ended .union opened (p.rest.length + 1)) := by
  induction fuel generalizing p with
  | zero =>
    have hrest : p.rest = [] := List.length_eq_zero_iff.mp (Nat.le_zero.mp hfuel)
    refine .pure _ rfl ⟨rfl, ?_, Nat.lt_succ_self _⟩
    rw [hrest]
    exact .inl rfl
  | succ fuel ih =>
    rw [Parser.alternatives]
    refine .peek ?_
    by_cases hsign : p.rest.head? = some unionSign
    · obtain ⟨u, hrest⟩ := List.head?_eq_some_iff.mp hsign
      rw [if_pos hsign]
      refine .consume hrest ?_
      rw [Scanner.on_of_step_eq_ok (n := p.nfa) hrest (Scanner.step_unionSign (by simp) _ _) rfl]
      refine .bind (scans_concatWith hsym _) ?_
      rintro f q _ ⟨rfl, hfollows, hlength⟩
      rw [hrest, List.length_cons] at hfuel ⊢
      rw [Parser.rest_moved] at hlength
      refine .bind (ih hfollows (by omega)) ?_
      rintro gs l _ ⟨rfl, hunion, hlength'⟩
      exact .pure _ rfl ⟨rfl, hunion, by omega⟩
    · rw [if_neg hsign]
      exact .pure _ rfl ⟨rfl, hend.union hsign, Nat.lt_succ_self _⟩

theorem scans_unionWith (hsym : Scans .symbol opened sym) :
    Scans .union opened (Parser.unionWith sym) := by
  intro p
  rw [Parser.unionWith]
  refine .bind (scans_concatWith hsym p) ?_
  rintro f q _ ⟨rfl, hconcat, hlength⟩
  refine .get (.bind (agrees_alternatives hsym _ hconcat (Nat.le_refl _)) ?_)
  rintro gs l _ ⟨rfl, hunion, hlength'⟩
  -- nothing is wrong with what follows, since the scanner has come to the end of a union
  rw [Agrees, run_bind_of_ok (endOfUnion_of_follows hunion)]
  exact Agrees.build rfl (Nfa.alphabet_chooseAll _ _ _)
    ⟨rfl, hunion, by rw [Parser.rest_moved]; omega⟩

/-- A group is read with one more open group. -/
theorem agrees_groupWith {u : Text} (hrest : p.rest = openGroup :: u)
    (hdepth : opened.length < maxDepth) (hsym : Scans .symbol (p.position :: opened) sym) :
    Agrees (Parser.groupWith sym) p ((⟨.need, opened⟩ : Scanner).on p)
      (Ended .symbol opened p.rest.length) := by
  have hstep : (⟨.need, opened⟩ : Scanner).step p.nfa.alphabet p.position openGroup =
      .ok ⟨.need, p.position :: opened⟩ := by
    rw [Scanner.step_need, Scanner.symbol, if_pos rfl, if_neg (Nat.not_le.mpr hdepth)]
  rw [Parser.groupWith, Scanner.on_of_step_eq_ok (n := p.nfa) hrest hstep rfl]
  refine .get (.consume hrest (.setDepth (.bind (scans_unionWith hsym _) ?_)))
  rintro f q _ ⟨rfl, hfollows, hlength⟩
  refine .setDepth (.peek ?_)
  change q.rest.length < u.length at hlength
  show Agrees (if q.rest.head? = some closeGroup then _ else _) _ _ _
  rcases hfollows with hend | hclose
  · rw [if_neg (by rw [hend]; simp)]
    exact .fail (Scanner.on_of_finish_eq_error (List.head?_eq_none_iff.mp hend) rfl)
  · obtain ⟨v, hv⟩ := List.head?_eq_some_iff.mp hclose
    rw [if_pos hclose]
    have hon := Scanner.on_of_step_eq_ok (n := q.nfa) hv
      (Scanner.step_closeGroup (s := ⟨.atom, p.position :: opened⟩) (by simp) _ _) rfl
    refine .consume hv (.pure f hon ⟨rfl, trivial, ?_⟩)
    rw [hv, List.length_cons] at hlength
    rw [hrest, List.length_cons, Parser.rest_moved]
    omega

/-- The rule for symbols counts downwards what the scanner counts upwards. -/
theorem scans_symbolWithin {level : Nat} {opened : List Nat}
    (hlevel : level + opened.length = maxDepth) :
    Scans .symbol opened (Parser.symbolWithin level) := by
  induction level generalizing opened with
  | zero =>
    refine scans_symbolWith fun p u hrest => .fail (Scanner.on_of_step_eq_error hrest ?_)
    have hfull : maxDepth ≤ opened.length := by omega
    rw [Scanner.step_need, Scanner.symbol, if_pos rfl, if_pos hfull]
  | succ level ih =>
    refine scans_symbolWith fun p u hrest => agrees_groupWith hrest (by omega) (ih ?_)
    rw [List.length_cons]
    omega

end Rules

/-! ### Whole expressions -/

/-- With no open group, the end of a union is the end of the text unless something trails it. -/
theorem agrees_endOfText {p : Parser} (hfollows : Follows .union p.rest) :
    Agrees Parser.endOfText p ((⟨.atom, []⟩ : Scanner).on p)
      fun s q => s = ⟨.atom, []⟩ ∧ q.rest = [] := by
  rw [Parser.endOfText]
  refine .peek ?_
  rcases hfollows with hend | hclose
  · rw [hend]
    exact .pure () rfl ⟨rfl, List.head?_eq_none_iff.mp hend⟩
  · obtain ⟨u, hrest⟩ := List.head?_eq_some_iff.mp hclose
    rw [hclose]
    exact .fail (Scanner.on_of_step_eq_error hrest (Scanner.step_closeGroup (by simp) _ _))

/-- A parser at the start of an expression finds what a scanner finds in all of its text. -/
theorem agrees_parse (regex : Text) (n : Nfa) :
    Agrees Parser.parse (.ofNfa regex n) (scan n.alphabet regex) fun s q => s.on q = .ok () := by
  have hsym : Scans .symbol [] (Parser.symbolWithin maxDepth) := scans_symbolWithin rfl
  rw [Parser.parse, Parser.union]
  refine .bind (.get (scans_unionWith hsym (.ofNfa regex n))) ?_
  rintro f p _ ⟨rfl, hfollows, -⟩
  refine .bind (agrees_endOfText hfollows) ?_
  rintro - q _ ⟨rfl, hrest⟩
  have hon : (⟨.atom, []⟩ : Scanner).on q = .ok () := by
    rw [Scanner.on, hrest]
    rfl
  -- the ends of the automaton, which are set last, make no difference to a scanner
  exact ⟨⟨.atom, []⟩, rfl, hon⟩

/-- An automaton is built exactly if the scanner comes to the end of the text. If it does not, both
stop at the same error. -/
theorem map_toNfa (regex : Text) (alphabet : Alphabet) :
    (toNfa regex alphabet).map (fun _ => ()) = scan alphabet regex := by
  have h := agrees_parse regex (.empty alphabet)
  rw [Agrees] at h
  rw [toNfa, Parser.new]
  cases hr : Parser.parse (.ofNfa regex (.empty alphabet)) with
  | ok f p =>
    rw [hr] at h
    obtain ⟨s, hs, hok⟩ := h
    exact (hs.trans hok).symm
  | error e p =>
    rw [hr] at h
    exact h.symm

theorem scan_eq_ok_iff {regex : Text} {alphabet : Alphabet} :
    scan alphabet regex = .ok () ↔ Scanner.initial.run alphabet 0 regex = .ok () := by
  rw [scan]
  cases Scanner.initial.run alphabet 0 regex <;> simp [Except.mapError]

theorem scan_eq_error_iff {regex : Text} {alphabet : Alphabet} {e : ParseError} :
    scan alphabet regex = .error e ↔
      Scanner.initial.run alphabet 0 regex = .error (e.cause, e.position) ∧ e.regex = regex := by
  obtain ⟨cause, i, t⟩ := e
  rw [scan]
  cases Scanner.initial.run alphabet 0 regex with
  | ok => simp [Except.mapError]
  | error found => simp [Except.mapError, Prod.ext_iff, and_assoc, eq_comm]

theorem toNfa_eq_error_iff {regex : Text} {alphabet : Alphabet} {e : ParseError} :
    toNfa regex alphabet = .error e ↔ scan alphabet regex = .error e := by
  rw [← map_toNfa]
  cases toNfa regex alphabet <;> simp [Except.map]

theorem exists_toNfa_iff_scan {regex : Text} {alphabet : Alphabet} :
    (∃ n, toNfa regex alphabet = .ok n) ↔ scan alphabet regex = .ok () := by
  rw [← map_toNfa]
  cases toNfa regex alphabet <;> simp [Except.map]

namespace Scanner

variable {alphabet : Alphabet} {s : Scanner} {i : Nat}

theorem step_ne_beyondUnion (c d : CodePoint) :
    s.step alphabet i c ≠ .error (.beyondUnion d) := by
  have hsymbol : s.symbol alphabet i c ≠ .error (.beyondUnion d) := by
    unfold symbol
    split_ifs <;> simp
  unfold step
  split_ifs
  · exact hsymbol
  · simp
  · cases s.opened <;> simp
  · simp
  · simp
  · exact hsymbol

theorem finish_ne_beyondUnion (d : CodePoint) : s.finish ≠ .error (.beyondUnion d) := by
  unfold finish
  split_ifs
  · simp
  · cases s.opened <;> simp

/-- A scanner never finds that something stands beyond a union. -/
theorem run_ne_beyondUnion (t : Text) (d : CodePoint) (j : Nat) :
    s.run alphabet i t ≠ .error (.beyondUnion d, j) := by
  intro h
  induction t generalizing s i with
  | nil => exact finish_ne_beyondUnion d (run_nil_eq_error h).1
  | cons c t ih =>
    rcases run_cons_eq_error h with ⟨s', -, hs'⟩ | ⟨hstep, -⟩
    · exact ih hs'
    · exact step_ne_beyondUnion c d hstep

end Scanner

/-- Reading an expression rule by rule and building its automaton on the way comes to the same end as
the scanner, which goes through the text once: it succeeds or fails with it, and an error has the
same cause and the same position. In particular nothing is ever found to stand beyond a union. -/
theorem toNfa_agrees_scan (regex : Text) (alphabet : Alphabet) :
    (toNfa regex alphabet).map (fun _ => ()) = scan alphabet regex ∧
      ∀ e c, toNfa regex alphabet = .error e → e.cause ≠ .beyondUnion c := by
  refine ⟨map_toNfa regex alphabet, ?_⟩
  intro e c he hc
  rw [toNfa_eq_error_iff, scan_eq_error_iff, hc] at he
  exact Scanner.run_ne_beyondUnion regex c e.position he.1

end RegexAutomata.Regex
