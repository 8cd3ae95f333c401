/-
What the rules read, and what they build on the way.

A text that the grammar derives is read by the rule of its category, as long as what follows cannot
be read as more of it (`Follows`). The fragment that the rule gives and the automaton that it leaves
are those of the expression of the text.

* `reads_of_derives` — every derived text is read in this way;
* `toNfa_of_derives` — the automaton of an expression that the grammar derives.

The rules for concatenations and unions go on with what they have built so far, where an expression
nests to the right. So the induction also says what they do in the middle of their work
(`GoesOn`).
-/
import RegexAutomata.Proofs.Regex.Advance
import RegexAutomata.Proofs.Regex.Compile

namespace RegexAutomata.Regex

open Nfa (Fragment)

variable {α β : Type}

theorem run_bind_of_ok {ε σ : Type} {r : EStateM ε σ α} {f : α → EStateM ε σ β} {p q : σ} {a : α}
    (h : r p = .ok a q) : (r >>= f) p = f a q := by
  rw [run_bind, h]

theorem run_peek_bind (f : Option CodePoint → Rule β) (p : Parser) :
    (Parser.peek >>= f) p = f p.rest.head? p := rfl

theorem run_get_bind {ε σ : Type} (f : σ → EStateM ε σ β) (p : σ) : (get >>= f) p = f p p := rfl

/-- The parser after a text was read and an automaton was built. -/
def Parser.moved (p : Parser) (t u : Text) (n : Nfa) : Parser :=
  { p with rest := u, position := p.position + t.length, nfa := n }

/-- The parser with another number of open groups. -/
def Parser.withDepth (p : Parser) (depth : Nat) : Parser := { p with depth }

namespace Parser

variable (p : Parser) (t u : Text) (n : Nfa)

@[simp] theorem rest_moved : (p.moved t u n).rest = u := rfl

@[simp] theorem nfa_moved : (p.moved t u n).nfa = n := rfl

@[simp] theorem moved_moved (t' u' : Text) (n' : Nfa) :
    (p.moved t u n).moved t' u' n' = p.moved (t ++ t') u' n' := by
  simp [moved, Nat.add_assoc]

theorem skip_eq_moved {c : CodePoint} (h : p.rest = c :: u) : p.skip = p.moved [c] u p.nfa := by
  simp [skip, moved, h]

end Parser

theorem run_consume_bind {p : Parser} {c : CodePoint} {u : Text} (h : p.rest = c :: u)
    (f : Unit → Rule β) :
    (discard Parser.consume >>= f) p = f () (p.moved [c] u p.nfa) := by
  rw [run_bind_of_ok (discard_consume h), p.skip_eq_moved u h]

theorem run_setDepth_bind (g : Nat → Nat) (f : Unit → Rule β) (p : Parser) :
    (Parser.setDepth g >>= f) p = f () (p.withDepth (g p.depth)) := rfl

/-- What may follow a text of a category, so that no rule reads on. -/
def Follows : Category → Text → Prop
  | .symbol, _ => True
  | .kleene, u => u.head? ≠ some starSign
  | .concat, u => Parser.endsConcat u.head? = true
  | .union, u => u.head? = none ∨ u.head? = some closeGroup

/-- A rule reads a text and builds the fragment of an expression. -/
def ReadsAs (alphabet : Alphabet) (x : Category) (r : Rule Fragment) (t : Text) (e : Expr) : Prop :=
  ∀ (p : Parser) (u : Text), p.nfa.alphabet = alphabet → p.rest = t ++ u → Follows x u →
    r p = .ok (e.compile p.nfa).1 (p.moved t u (e.compile p.nfa).2)

/-- In a concatenation, a text is read as what follows a fragment. -/
def ConcatGoesOn (alphabet : Alphabet) (sym : Rule Fragment) (t : Text) (e : Expr) : Prop :=
  ∀ (p : Parser) (u : Text) (fuel : Nat) (f : Fragment), p.nfa.alphabet = alphabet →
    p.rest = t ++ u → Follows .concat u → t.length ≤ fuel → p.nfa.Holds f →
    Parser.concatRest sym fuel f p =
      .ok (Nfa.join f (e.compile p.nfa).1 (e.compile p.nfa).2).1
        (p.moved t u (Nfa.join f (e.compile p.nfa).1 (e.compile p.nfa).2).2)

/-- In a union, a text is read as one or more further alternatives, which are combined later. -/
def UnionGoesOn (alphabet : Alphabet) (sym : Rule Fragment) (t : Text) (e : Expr) : Prop :=
  ∀ (p : Parser) (u : Text) (fuel : Nat), p.nfa.alphabet = alphabet →
    p.rest = unionSign :: (t ++ u) → Follows .union u → t.length < fuel →
    ∃ f gs n, Parser.alternatives sym fuel p = .ok (f :: gs) (p.moved (unionSign :: t) u n) ∧
      Nfa.chooseAll f gs n = e.compile p.nfa

section Rules

variable {alphabet : Alphabet} {sym : Rule Fragment} {t v : Text} {e g : Expr}

theorem alphabet_compile (e : Expr) (n : Nfa) : (e.compile n).2.alphabet = n.alphabet :=
  (e.growsTo_compile n.size.le_refl).1.alphabet_eq

/-! ### Symbols -/

theorem readsAs_literal {c : CodePoint} (hc : isOperator c = false) (halphabet : [c] ∈ alphabet)
    (group : Rule Fragment) :
    ReadsAs alphabet .symbol (Parser.symbolWith group) [c] (.literal c) := by
  have hopen : c ≠ openGroup := by
    rintro rfl
    exact absurd hc (by decide)
  intro p u hp hrest _
  rw [Parser.symbolWith, run_peek_bind, hrest]
  simp only [List.singleton_append, List.head?_cons, if_neg hopen]
  rw [Parser.literal, run_get_bind, if_neg (by simp [hc, hp, halphabet]), run_consume_bind hrest]
  rfl

theorem readsAs_group (h : ReadsAs alphabet .union (Parser.unionWith sym) t e) :
    ReadsAs alphabet .symbol (Parser.symbolWith (Parser.groupWith sym))
      ([openGroup] ++ t ++ [closeGroup]) e := by
  intro p u hp hrest _
  have hrest : p.rest = openGroup :: (t ++ closeGroup :: u) := by simpa using hrest
  -- the union is read behind the parenthesis, with one more open group
  let q := (p.moved [openGroup] (t ++ closeGroup :: u) p.nfa).withDepth (p.depth + 1)
  have hunion : Parser.unionWith sym q =
      .ok (e.compile p.nfa).1 (q.moved t (closeGroup :: u) (e.compile p.nfa).2) :=
    h q (closeGroup :: u) hp rfl (.inr rfl)
  rw [Parser.symbolWith, run_peek_bind, hrest]
  show Parser.groupWith sym p = _
  rw [Parser.groupWith, run_get_bind, run_consume_bind hrest, run_setDepth_bind]
  show (Parser.unionWith sym >>= _) q = _
  rw [run_bind_of_ok hunion, run_setDepth_bind, run_peek_bind]
  show (discard Parser.consume >>= _) _ = _
  rw [run_consume_bind (u := u) rfl]
  show EStateM.Result.ok _ _ = _
  simp [q, Parser.moved, Parser.withDepth, Nat.add_assoc]
  omega

/-! ### Stars -/

theorem readsAs_kleene (h : ReadsAs alphabet .symbol sym t e) :
    ReadsAs alphabet .kleene (Parser.kleeneWith sym) t e := by
  intro p u hp hrest hu
  rw [Parser.kleeneWith, run_bind_of_ok (h p u hp hrest trivial), run_peek_bind, Parser.rest_moved,
    if_neg hu]
  rfl

theorem readsAs_star (h : ReadsAs alphabet .symbol sym t e) :
    ReadsAs alphabet .kleene (Parser.kleeneWith sym) (t ++ [starSign]) (.star e) := by
  intro p u hp hrest _
  rw [List.append_assoc] at hrest
  rw [Parser.kleeneWith, run_bind_of_ok (h p _ hp hrest trivial), run_peek_bind, Parser.rest_moved,
    if_pos (by rfl), run_consume_bind (u := u) rfl, Parser.moved_moved]
  rfl

/-! ### Concatenations -/

theorem concatRest_of_follows {p : Parser} (hp : Follows .concat p.rest) (fuel : Nat)
    (f : Fragment) : Parser.concatRest sym fuel f p = .ok f p := by
  rw [Follows] at hp
  cases fuel with
  | zero => rfl
  | succ fuel =>
    rw [Parser.concatRest, run_peek_bind, if_pos hp]
    rfl

/-- After a concatenation there is no star. -/
theorem Follows.kleene {u : Text} (hu : Follows .concat u) : Follows .kleene u := by
  intro h
  rw [Follows, h] at hu
  exact absurd hu (by decide)

/-- A derived text ends no concatenation, and does not begin with a star either. -/
theorem head?_of_derives {x : Category} {k : Nat} (h : Derives alphabet x k t e) (u : Text) :
    ¬Parser.endsConcat (t ++ u).head? = true ∧ Follows .kleene (t ++ u) := by
  obtain ⟨c, v, rfl, hc⟩ := h.exists_cons
  rw [List.cons_append, Follows, List.head?_cons]
  rcases hc with rfl | hc
  · decide
  · simp only [isOperator, Bool.or_eq_false_iff, decide_eq_false_iff_not] at hc
    simp [Parser.endsConcat, hc]

theorem readsAs_concat_kleene (h : ReadsAs alphabet .kleene (Parser.kleeneWith sym) t e) :
    ReadsAs alphabet .concat (Parser.concatWith sym) t e := by
  intro p u hp hrest hu
  rw [Parser.concatWith, run_bind_of_ok (h p u hp hrest hu.kleene), run_get_bind]
  exact concatRest_of_follows hu _ _

theorem readsAs_concat {k : Nat} (h : ReadsAs alphabet .kleene (Parser.kleeneWith sym) t e)
    (hv : Derives alphabet .concat k v g) (hrest : ConcatGoesOn alphabet sym v g) :
    ReadsAs alphabet .concat (Parser.concatWith sym) (t ++ v) (.concat e g) := by
  intro p u hp ht hu
  rw [List.append_assoc] at ht
  rw [Parser.concatWith, run_bind_of_ok (h p (v ++ u) hp ht (head?_of_derives hv u).2),
    run_get_bind, Parser.rest_moved, hrest _ u _ _ ((alphabet_compile e _).trans hp) rfl hu
      (List.prefix_append v u).length_le (e.holds_compile p.nfa), Parser.moved_moved]
  rfl

/-- A further starred symbol is joined to what was read before. -/
theorem concatRest_succ {k fuel : Nat} {p : Parser} {u : Text} {f : Fragment}
    (ht : Derives alphabet .kleene k t e)
    (h : ReadsAs alphabet .kleene (Parser.kleeneWith sym) t e) (hp : p.nfa.alphabet = alphabet)
    (hrest : p.rest = t ++ u) (hu : Follows .kleene u) :
    Parser.concatRest sym (fuel + 1) f p =
      Parser.concatRest sym fuel (Nfa.join f (e.compile p.nfa).1 (e.compile p.nfa).2).1
        (p.moved t u (Nfa.join f (e.compile p.nfa).1 (e.compile p.nfa).2).2) := by
  rw [Parser.concatRest, run_peek_bind, hrest, if_neg (head?_of_derives ht u).1,
    run_bind_of_ok (h p u hp hrest hu)]
  rfl

theorem concatGoesOn_kleene {k : Nat} (ht : Derives alphabet .kleene k t e)
    (h : ReadsAs alphabet .kleene (Parser.kleeneWith sym) t e) : ConcatGoesOn alphabet sym t e := by
  intro p u fuel f hp hrest hu hfuel hf
  have hpos := List.length_pos_of_ne_nil ht.ne_nil
  obtain ⟨fuel, rfl⟩ : ∃ j, fuel = j + 1 := ⟨fuel - 1, by omega⟩
  rw [concatRest_succ ht h hp hrest hu.kleene]
  exact concatRest_of_follows hu _ _

/-- Joining to the left what the expression joins to the right gives the same: the two edges leave
different states. -/
theorem join_compile_join (e g : Expr) {n : Nfa} {f : Fragment} (hf : n.Holds f) :
    let r := Nfa.join f (e.compile n).1 (e.compile n).2
    Nfa.join r.1 (g.compile r.2).1 (g.compile r.2).2 =
      Nfa.join f ((Expr.concat e g).compile n).1 ((Expr.concat e g).compile n).2 := by
  intro r
  have he := e.holds_compile n
  have hg := g.holds_compile (e.compile n).2
  have hf' := hf.mono (e.size_le_compile n)
  have hsize := g.size_le_compile (e.compile n).2
  have hapart : f.exit ≠ (e.compile n).1.exit := by
    have h₁ := hf.exit.2
    have h₂ := (e.growsTo_compile n.size.le_refl).2.le_exit
    omega
  -- the second part is built the same way whether the first edge is there or not
  have hlink := g.compile_link hf'.exit he.entry epsilon
  show Nfa.join r.1 (g.compile ((e.compile n).2.link f.exit epsilon (e.compile n).1.entry)).1
    (g.compile ((e.compile n).2.link f.exit epsilon (e.compile n).1.entry)).2 = _
  rw [hlink, Expr.compile_concat]
  refine Prod.ext rfl ?_
  exact Nfa.link_comm (hf'.mono hsize).exit (he.mono hsize).entry (he.mono hsize).exit hg.entry
    hapart

theorem concatGoesOn_concat {k : Nat} (ht : Derives alphabet .kleene k t e)
    (h : ReadsAs alphabet .kleene (Parser.kleeneWith sym) t e)
    (hv : Derives alphabet .concat k v g) (hrest : ConcatGoesOn alphabet sym v g) :
    ConcatGoesOn alphabet sym (t ++ v) (.concat e g) := by
  intro p u fuel f hp ht' hu hfuel hf
  rw [List.append_assoc] at ht'
  rw [List.length_append] at hfuel
  have hpos := List.length_pos_of_ne_nil ht.ne_nil
  obtain ⟨fuel, rfl⟩ : ∃ j, fuel = j + 1 := ⟨fuel - 1, by omega⟩
  have hjoin := (hf.mono (e.size_le_compile p.nfa)).join (e.holds_compile p.nfa)
  rw [concatRest_succ ht h hp ht' (head?_of_derives hv u).2,
    hrest _ u _ _ (by simp [Nfa.join, alphabet_compile, hp]) rfl hu (by omega) hjoin,
    Parser.nfa_moved, join_compile_join e g hf, Parser.moved_moved]

/-! ### Unions -/

theorem alternatives_of_follows {p : Parser} (hp : Follows .union p.rest) (fuel : Nat) :
    Parser.alternatives sym fuel p = .ok [] p := by
  cases fuel with
  | zero => rfl
  | succ fuel =>
    rw [Parser.alternatives, run_peek_bind, if_neg]
    · rfl
    · rcases hp with hp | hp <;> rw [hp] <;> decide

theorem Follows.concat {u : Text} (hu : Follows .union u) : Follows .concat u := by
  rcases hu with hu | hu <;> rw [Follows, hu] <;> rfl

theorem endOfUnion_of_follows {p : Parser} (hp : Follows .union p.rest) :
    Parser.endOfUnion p = .ok () p := by
  rw [Parser.endOfUnion, run_peek_bind]
  rcases hp with hp | hp <;> rw [hp] <;> rfl

theorem readsAs_alternative (h : ReadsAs alphabet .concat (Parser.concatWith sym) t e) :
    ReadsAs alphabet .union (Parser.unionWith sym) t e := by
  intro p u hp hrest hu
  rw [Parser.unionWith, run_bind_of_ok (h p u hp hrest hu.concat), run_get_bind,
    run_bind_of_ok (alternatives_of_follows hu _), run_bind_of_ok (endOfUnion_of_follows hu)]
  rfl

/-- The first alternative is combined with the others last, as the expression has it. -/
theorem chooseAll_compile {f : Fragment} {gs : List Fragment} {n m : Nfa}
    (hn : Nfa.chooseAll f gs n = g.compile (e.compile m).2) :
    Nfa.chooseAll (e.compile m).1 (f :: gs) n = (Expr.union e g).compile m := by
  rw [Nfa.chooseAll, hn]
  rfl

theorem readsAs_union (h : ReadsAs alphabet .concat (Parser.concatWith sym) t e)
    (hrest : UnionGoesOn alphabet sym v g) :
    ReadsAs alphabet .union (Parser.unionWith sym) (t ++ [unionSign] ++ v) (.union e g) := by
  intro p u hp ht hu
  have ht : p.rest = t ++ (unionSign :: (v ++ u)) := by simpa using ht
  have halphabet := (alphabet_compile e p.nfa).trans hp
  have hfuel : v.length < (unionSign :: (v ++ u)).length := by
    rw [List.length_cons, List.length_append]
    omega
  obtain ⟨f, gs, n, hrun, hn⟩ := hrest (p.moved t (unionSign :: (v ++ u)) (e.compile p.nfa).2) u
    (unionSign :: (v ++ u)).length halphabet rfl hu hfuel
  rw [Parser.unionWith, run_bind_of_ok (h p _ hp ht rfl), run_get_bind, Parser.rest_moved,
    run_bind_of_ok hrun, run_bind_of_ok (endOfUnion_of_follows hu)]
  show EStateM.Result.ok (Nfa.chooseAll (e.compile p.nfa).1 (f :: gs) n).1
    (Parser.moved _ [] u (Nfa.chooseAll (e.compile p.nfa).1 (f :: gs) n).2) = _
  rw [chooseAll_compile hn]
  simp

/-- A further alternative is read after its sign. -/
theorem alternatives_succ {fuel : Nat} {p : Parser} {u : Text}
    (h : ReadsAs alphabet .concat (Parser.concatWith sym) t e) (hp : p.nfa.alphabet = alphabet)
    (hrest : p.rest = unionSign :: (t ++ u)) (hu : Follows .concat u) :
    Parser.alternatives sym (fuel + 1) p =
      (Parser.alternatives sym fuel >>= fun gs => pure ((e.compile p.nfa).1 :: gs))
        (p.moved (unionSign :: t) u (e.compile p.nfa).2) := by
  rw [Parser.alternatives, run_peek_bind, hrest, if_pos (by rfl), run_consume_bind hrest,
    run_bind_of_ok (h (p.moved [unionSign] (t ++ u) p.nfa) u hp rfl hu), Parser.nfa_moved,
    Parser.moved_moved]
  rfl

theorem unionGoesOn_alternative (h : ReadsAs alphabet .concat (Parser.concatWith sym) t e) :
    UnionGoesOn alphabet sym t e := by
  intro p u fuel hp hrest hu hfuel
  obtain ⟨fuel, rfl⟩ : ∃ j, fuel = j + 1 := ⟨fuel - 1, by omega⟩
  refine ⟨_, [], _, ?_, rfl⟩
  rw [alternatives_succ h hp hrest hu.concat, run_bind_of_ok (alternatives_of_follows hu _)]
  rfl

theorem unionGoesOn_union (h : ReadsAs alphabet .concat (Parser.concatWith sym) t e)
    (hrest : UnionGoesOn alphabet sym v g) :
    UnionGoesOn alphabet sym (t ++ [unionSign] ++ v) (.union e g) := by
  intro p u fuel hp ht hu hfuel
  simp only [List.length_append, List.length_singleton] at hfuel
  obtain ⟨fuel, rfl⟩ : ∃ j, fuel = j + 1 := ⟨fuel - 1, by omega⟩
  have ht : p.rest = unionSign :: (t ++ (unionSign :: (v ++ u))) := by simpa using ht
  have halphabet := (alphabet_compile e p.nfa).trans hp
  obtain ⟨f, gs, n, hrun, hn⟩ :=
    hrest (p.moved (unionSign :: t) (unionSign :: (v ++ u)) (e.compile p.nfa).2) u fuel halphabet
      rfl hu (by omega)
  refine ⟨(e.compile p.nfa).1, f :: gs, n, ?_, chooseAll_compile hn⟩
  rw [alternatives_succ h hp ht rfl, run_bind_of_ok hrun, Parser.moved_moved, List.append_assoc]
  rfl

/-! ### All derived texts -/

/-- The rule of a category. -/
def Category.rule : Category → Nat → Rule Fragment
  | .symbol, k => Parser.symbolWithin k
  | .kleene, k => Parser.kleeneWith (Parser.symbolWithin k)
  | .concat, k => Parser.concatWith (Parser.symbolWithin k)
  | .union, k => Parser.unionWith (Parser.symbolWithin k)

/-- What a rule does in the middle of its work. -/
def GoesOn (alphabet : Alphabet) : Category → Rule Fragment → Text → Expr → Prop
  | .concat => ConcatGoesOn alphabet
  | .union => UnionGoesOn alphabet
  | _ => fun _ _ _ => True

/-- A text that is derived as a category is read by the rule of the category. -/
theorem reads_of_derives {x : Category} {k : Nat} (h : Derives alphabet x k t e) :
    ReadsAs alphabet x (x.rule k) t e ∧ GoesOn alphabet x (Parser.symbolWithin k) t e := by
  -- a list is read by going on with its tail, so the tail is known in both ways
  induction h with
  | @literal k c hc halphabet =>
    refine ⟨?_, trivial⟩
    cases k with
    | zero => exact readsAs_literal hc halphabet _
    | succ k => exact readsAs_literal hc halphabet _
  | group _ ih => exact ⟨readsAs_group ih.1, trivial⟩
  | symbol _ ih => exact ⟨readsAs_kleene ih.1, trivial⟩
  | star _ ih => exact ⟨readsAs_star ih.1, trivial⟩
  | kleene ht ih => exact ⟨readsAs_concat_kleene ih.1, concatGoesOn_kleene ht ih.1⟩
  | concat ht hv iht ihv =>
    exact ⟨readsAs_concat iht.1 hv ihv.2, concatGoesOn_concat ht iht.1 hv ihv.2⟩
  | alternative _ ih => exact ⟨readsAs_alternative ih.1, unionGoesOn_alternative ih.1⟩
  | union _ _ iht ihv => exact ⟨readsAs_union iht.1 ihv.2, unionGoesOn_union iht.1 ihv.2⟩

/-- A parser that may open groups as often as a derivation needs it reads the whole text. -/
theorem parse_of_derives {p : Parser} (hp : p.depth = 0)
    (h : Derives p.nfa.alphabet .union maxDepth p.rest e) :
    Parser.parse p = .ok (e.compile p.nfa).1 (p.moved p.rest []
      { (e.compile p.nfa).2 with
        start := (e.compile p.nfa).1.entry, finish := (e.compile p.nfa).1.exit }) := by
  have hunion : Parser.union p =
      .ok (e.compile p.nfa).1 (p.moved p.rest [] (e.compile p.nfa).2) := by
    rw [Parser.union, run_get_bind, hp]
    exact (reads_of_derives h).1 p [] rfl (List.append_nil _).symm (.inl rfl)
  rw [Parser.parse, run_bind_of_ok hunion]
  rfl

/-- The automaton of a derived expression is built along the expression. -/
theorem toNfa_of_derives {regex : Text} (h : Derives alphabet .union maxDepth regex e) :
    toNfa regex alphabet = .ok
      { (e.compile (.empty alphabet)).2 with
        start := (e.compile (.empty alphabet)).1.entry
        finish := (e.compile (.empty alphabet)).1.exit } := by
  rw [toNfa, parse_of_derives (p := .new regex alphabet) rfl h]
  rfl

end Rules

end RegexAutomata.Regex
