/-
What any call of a rule does, whether it succeeds or fails.

A rule reads on in the text, leaves no group open that it did not open, and lets the automaton grow
(`Advances`). A rule that succeeds has read a text of its category (`Reads`) and gives a fragment of
the new part of the automaton (`Parses`).

* `parses_symbolWithin`, `parses_kleeneWith`, `parses_concatWith`, `parses_unionWith` — this holds
  of every rule;
* `exists_derives_of_toNfa` — an expression from which an automaton is built is derived by the
  grammar;
* `grows_parseInto`, `exists_builds_parseInto` — an automaton that an expression is read into grows,
  and no edge is refused, also if there is an error.
-/
import RegexAutomata.Proofs.Nfa.Growth
import RegexAutomata.Proofs.Regex.Grammar

namespace RegexAutomata.Regex

open Nfa (Fragment Above GrowsTo)

variable {α β : Type}

/-- What holds after a rule that succeeds, and what after one that fails. -/
def Ensures (r : Rule α) (p : Parser) (ok : α → Parser → Prop) (failed : Parser → Prop) : Prop :=
  match r p with
  | .ok a q => ok a q
  | .error _ q => failed q

/-- One rule, or one edit of an automaton, after another. -/
theorem run_bind {ε σ : Type} (r : EStateM ε σ α) (f : α → EStateM ε σ β) (p : σ) :
    (r >>= f) p = match r p with
      | .ok a q => f a q
      | .error e q => .error e q := by
  show EStateM.bind r f p = _
  rw [EStateM.bind]
  cases r p <;> rfl

namespace Ensures

variable {p : Parser} {r : Rule α} {f : α → Rule β} {Q : α → Parser → Prop}
  {R : β → Parser → Prop} {E : Parser → Prop}

theorem bind (h : Ensures r p Q E) (hf : ∀ a q, Q a q → Ensures (f a) q R E) :
    Ensures (r >>= f) p R E := by
  rw [Ensures] at h
  rw [Ensures, run_bind]
  cases hr : r p with
  | ok a q =>
    rw [hr] at h
    exact hf a q h
  | error e q =>
    rw [hr] at h
    exact h

theorem mono {Q' : α → Parser → Prop} {E' : Parser → Prop} (h : Ensures r p Q E)
    (hQ : ∀ a q, Q a q → Q' a q) (hE : ∀ q, E q → E' q) : Ensures r p Q' E' := by
  rw [Ensures] at h ⊢
  cases hr : r p with
  | ok a q =>
    rw [hr] at h
    exact hQ a q h
  | error e q =>
    rw [hr] at h
    exact hE q h

end Ensures

/-! ### Reading on -/

/-- The parser after one more code point. -/
def Parser.skip (p : Parser) : Parser := { p with rest := p.rest.tail, position := p.position + 1 }

theorem discard_consume {p : Parser} {c : CodePoint} {rest : Text} (h : p.rest = c :: rest) :
    (discard Parser.consume : Rule Unit) p = .ok () p.skip := by
  have hconsume : Parser.consume p = .ok (some c) p.skip := by
    rw [Parser.consume, h]
    simp [Parser.skip, h]
  show EStateM.map _ Parser.consume p = _
  rw [EStateM.map, hconsume]

/-- What every call of a rule does: text is read, no group is closed that was open before, and the
automaton grows from some number on. -/
structure Advances (base : Nat) (p q : Parser) : Prop where
  regex_eq : q.regex = p.regex
  exists_read : ∃ t, p.rest = t ++ q.rest ∧ q.position = p.position + t.length
  depth_le : p.depth ≤ q.depth
  grows : Nfa.Grows (· ∈ p.nfa.alphabet) base p.nfa q.nfa

namespace Advances

variable {base : Nat} {p q r : Parser}

theorem refl (base : Nat) (p : Parser) : Advances base p p :=
  ⟨rfl, ⟨[], rfl, rfl⟩, Nat.le_refl _, .refl⟩

theorem trans (h : Advances base p q) (h' : Advances base q r) : Advances base p r := by
  obtain ⟨t, ht, hpos⟩ := h.exists_read
  obtain ⟨u, hu, hpos'⟩ := h'.exists_read
  have hgrows := h'.grows
  rw [h.grows.alphabet_eq] at hgrows
  refine ⟨h'.regex_eq.trans h.regex_eq, ⟨t ++ u, ?_, ?_⟩, h.depth_le.trans h'.depth_le,
    h.grows.trans hgrows⟩
  · rw [ht, hu, List.append_assoc]
  · rw [hpos', hpos, List.length_append, Nat.add_assoc]

theorem skip {c : CodePoint} {rest : Text} (h : p.rest = c :: rest) : Advances base p p.skip :=
  ⟨rfl, ⟨[c], by simp [Parser.skip, h], rfl⟩, Nat.le_refl _, .refl⟩

theorem le_size (h : Advances base p q) (hp : base ≤ p.nfa.size) : base ≤ q.nfa.size :=
  hp.trans h.grows.size_le

end Advances

/-- What a rule does that succeeds: it reads one of the texts that it is made for, and closes the
groups that it opens. -/
structure Reads (texts : Text → Prop) (base : Nat) (p q : Parser) : Prop where
  advances : Advances base p q
  depth_eq : q.depth = p.depth
  exists_read : ∃ t, texts t ∧ p.rest = t ++ q.rest

namespace Reads

variable {base : Nat} {p q r : Parser} {T U V : Text → Prop}

theorem trans (h : Reads T base p q) (h' : Reads U base q r) (hV : ∀ t u, T t → U u → V (t ++ u)) :
    Reads V base p r := by
  obtain ⟨t, ht, hp⟩ := h.exists_read
  obtain ⟨u, hu, hq⟩ := h'.exists_read
  refine ⟨h.advances.trans h'.advances, h'.depth_eq.trans h.depth_eq, t ++ u, hV t u ht hu, ?_⟩
  rw [hp, hq, List.append_assoc]

theorem mono (h : Reads T base p q) (hTU : ∀ t, T t → U t) : Reads U base p q := by
  obtain ⟨t, ht, hp⟩ := h.exists_read
  exact ⟨h.advances, h.depth_eq, t, hTU t ht, hp⟩

theorem refl (base : Nat) (p : Parser) : Reads (· = []) base p p :=
  ⟨.refl base p, rfl, [], rfl, rfl⟩

theorem skip {c : CodePoint} {rest : Text} (h : p.rest = c :: rest) :
    Reads (· = [c]) base p p.skip :=
  ⟨.skip h, rfl, [c], rfl, by simp [Parser.skip, h]⟩

theorem alphabet_eq (h : Reads T base p q) : q.nfa.alphabet = p.nfa.alphabet :=
  h.advances.grows.alphabet_eq

theorem le_size (h : Reads T base p q) (hp : base ≤ p.nfa.size) : base ≤ q.nfa.size :=
  h.advances.le_size hp

end Reads

/-- The texts that can be derived as a category, with groups that nest at most `level` deep. -/
def Texts (alphabet : Alphabet) (x : Category) (level : Nat) (t : Text) : Prop :=
  ∃ e, Derives alphabet x level t e

/-- What can follow a first starred symbol in a concatenation. -/
def MoreConcat (alphabet : Alphabet) (level : Nat) (t : Text) : Prop :=
  t = [] ∨ Texts alphabet .concat level t

/-- What can follow a first alternative in a union. -/
def MoreUnion (alphabet : Alphabet) (level : Nat) (t : Text) : Prop :=
  t = [] ∨ ∃ u, t = [unionSign] ++ u ∧ Texts alphabet .union level u

namespace Texts

variable {alphabet : Alphabet} {level : Nat} {t u : Text}

theorem concat (ht : Texts alphabet .kleene level t) (hu : MoreConcat alphabet level u) :
    Texts alphabet .concat level (t ++ u) := by
  obtain ⟨e, he⟩ := ht
  rcases hu with rfl | ⟨f, hf⟩
  · rw [List.append_nil]
    exact ⟨e, .kleene he⟩
  · exact ⟨_, .concat he hf⟩

theorem union (ht : Texts alphabet .concat level t) (hu : MoreUnion alphabet level u) :
    Texts alphabet .union level (t ++ u) := by
  obtain ⟨e, he⟩ := ht
  rcases hu with rfl | ⟨u, rfl, f, hf⟩
  · rw [List.append_nil]
    exact ⟨e, .alternative he⟩
  · rw [← List.append_assoc]
    exact ⟨_, .union he hf⟩

end Texts

/-- A rule reads a text and gives something; whatever happens, it only reads on. -/
def Does (r : Rule α) (p : Parser) (base : Nat) (texts : Text → Prop) (gives : α → Parser → Prop) :
    Prop :=
  Ensures r p (fun a q => Reads texts base p q ∧ gives a q) (Advances base p)

/-- A rule reads the texts of a category and gives a fragment of the new part of the automaton. -/
def Parses (x : Category) (level : Nat) (r : Rule Fragment) : Prop :=
  ∀ p base, base ≤ p.nfa.size →
    Does r p base (Texts p.nfa.alphabet x level) fun f q => Above base q.nfa f

namespace Does

variable {base : Nat} {p : Parser} {r : Rule α} {f : α → Rule β} {T U V : Text → Prop}
  {P : α → Parser → Prop} {Q : β → Parser → Prop}

/-- What a rule does after a text was read, as seen from before this text. -/
theorem after {q : Parser} (hq : Reads T base p q) (h : Does r q base U P)
    (hV : ∀ t u, T t → U u → V (t ++ u)) :
    Ensures r q (fun a s => Reads V base p s ∧ P a s) (Advances base p) := by
  refine Ensures.mono h ?_ ?_
  · rintro a s ⟨hs, ha⟩
    exact ⟨hq.trans hs hV, ha⟩
  · exact fun s hs => hq.advances.trans hs

/-- Two rules read one text after the other. -/
theorem seq (h : Does r p base T P)
    (hf : ∀ a q, Reads T base p q → P a q → Does (f a) q base U Q)
    (hV : ∀ t u, T t → U u → V (t ++ u)) : Does (r >>= f) p base V Q :=
  Ensures.bind h fun a q ⟨hq, ha⟩ => after hq (hf a q hq ha) hV

/-- A rule that is run with one more open group; if it fails, the group stays open. -/
theorem within (h : Does r { p with depth := p.depth + 1 } base T P)
    (hP : ∀ a q, P a q → P a { q with depth := q.depth - 1 })
    (hf : ∀ a q, Reads T base p q → P a q → Does (f a) q base U Q)
    (hV : ∀ t u, T t → U u → V (t ++ u)) :
    Does (do
      Parser.setDepth (· + 1)
      let a ← r
      Parser.setDepth (· - 1)
      f a) p base V Q := by
  have hopen : Advances base p { p with depth := p.depth + 1 } :=
    ⟨rfl, ⟨[], rfl, rfl⟩, Nat.le_succ _, .refl⟩
  refine Ensures.bind (r := r) (Ensures.mono h (fun _ _ h => h) fun q hq => hopen.trans hq) ?_
  rintro a q ⟨hq, ha⟩
  -- the rule has closed its own groups, so that one less is what was open before
  have hdepth : q.depth = p.depth + 1 := hq.depth_eq
  have hclose : Reads T base p { q with depth := q.depth - 1 } := by
    refine ⟨⟨hq.advances.regex_eq, hq.advances.exists_read, ?_, hq.advances.grows⟩, ?_,
      hq.exists_read⟩
    · show p.depth ≤ q.depth - 1
      omega
    · show q.depth - 1 = p.depth
      omega
  show Ensures (f a) { q with depth := q.depth - 1 } _ _
  exact after hclose (hf a _ hclose (hP a q ha)) hV

theorem pure {a : α} (h : P a p) (hT : T []) : Does (Pure.pure a) p base T P :=
  ⟨(Reads.refl base p).mono fun _ ht => ht ▸ hT, h⟩

theorem fail {cause : Cause} : Does (Parser.fail cause) p base T P := Advances.refl base p

/-- Looking at what comes next reads nothing. -/
theorem peek {g : Option CodePoint → Rule β} {x : Option CodePoint} (hx : p.rest.head? = x)
    (h : Does (g x) p base T Q) : Does (Parser.peek >>= g) p base T Q := by
  rw [← hx] at h
  exact h

theorem get {g : Parser → Rule β} (h : Does (g p) p base T Q) :
    Does (MonadState.get >>= g) p base T Q := h

theorem consume {c : CodePoint} {rest : Text} (h : p.rest = c :: rest) :
    Does (discard Parser.consume) p base (· = [c]) fun _ q => q = p.skip := by
  rw [Does, Ensures, discard_consume h]
  exact ⟨.skip h, rfl⟩

theorem build {b : Nfa → Fragment × Nfa}
    (h : GrowsTo (· ∈ p.nfa.alphabet) base p.nfa (b p.nfa)) :
    Does (Parser.build b) p base (· = []) fun f q => Above base q.nfa f :=
  ⟨⟨⟨rfl, ⟨[], rfl, rfl⟩, Nat.le_refl _, h.1⟩, rfl, [], rfl, rfl⟩, h.2⟩

end Does

/-! ### The rules -/

section Rules

variable {level base : Nat} {p : Parser} {sym : Rule Fragment}

theorem does_literal {c : CodePoint} {rest : Text} (hrest : p.rest = c :: rest)
    (hbase : base ≤ p.nfa.size) :
    Does (Parser.literal c) p base (Texts p.nfa.alphabet .symbol level)
      fun f q => Above base q.nfa f := by
  rw [Parser.literal]
  refine Does.get ?_
  by_cases h : (isOperator c || decide ([c] ∉ p.nfa.alphabet)) = true
  · rw [if_pos h]
    exact .fail
  · rw [if_neg h]
    simp only [Bool.or_eq_true, decide_eq_true_eq, not_or, not_not, Bool.not_eq_true] at h
    refine Does.seq (.consume hrest) (fun _ q _ hq => .build ?_) ?_
    · subst hq
      exact .literal hbase h.2
    · rintro t u rfl rfl
      exact ⟨_, .literal h.1 h.2⟩

theorem parses_symbolWith {group : Rule Fragment}
    (hgroup : ∀ p base rest, p.rest = openGroup :: rest → base ≤ p.nfa.size →
      Does group p base (Texts p.nfa.alphabet .symbol level) fun f q => Above base q.nfa f) :
    Parses .symbol level (Parser.symbolWith group) := by
  intro p base hbase
  rw [Parser.symbolWith]
  cases hrest : p.rest with
  | nil => exact .peek (x := none) (by rw [hrest]; rfl) .fail
  | cons c rest =>
    refine .peek (x := some c) (by rw [hrest]; rfl) ?_
    by_cases hc : c = openGroup
    · subst hc
      exact hgroup p base rest hrest hbase
    · simp only [if_neg hc]
      exact does_literal hrest hbase

theorem parses_kleeneWith (hsym : Parses .symbol level sym) :
    Parses .kleene level (Parser.kleeneWith sym) := by
  intro p base hbase
  rw [Parser.kleeneWith]
  refine Does.seq (U := fun u => u = [] ∨ u = [starSign]) (hsym p base hbase)
    (fun f q hq hf => .peek rfl ?_) ?_
  · by_cases hstar : q.rest.head? = some starSign
    · obtain ⟨rest, hrest⟩ := List.head?_eq_some_iff.mp hstar
      rw [if_pos hstar]
      refine Does.seq (.consume hrest) (fun _ s _ hs => .build ?_) ?_
      · subst hs
        exact .star (hq.le_size hbase) hf
      · rintro t u rfl rfl
        exact .inr rfl
    · rw [if_neg hstar]
      exact .pure hf (.inl rfl)
  · rintro t u ⟨e, he⟩ (rfl | rfl)
    · rw [List.append_nil]
      exact ⟨e, .symbol he⟩
    · exact ⟨_, .star he⟩

/-- What follows in a concatenation is nothing or another concatenation. -/
theorem does_concatRest (hsym : Parses .symbol level sym) (fuel : Nat) {f : Fragment}
    (hbase : base ≤ p.nfa.size) (hf : Above base p.nfa f) :
    Does (Parser.concatRest sym fuel f) p base (MoreConcat p.nfa.alphabet level)
      fun f q => Above base q.nfa f := by
  induction fuel generalizing p f with
  | zero => exact .pure hf (.inl rfl)
  | succ fuel ih =>
    rw [Parser.concatRest]
    refine .peek rfl ?_
    by_cases hend : Parser.endsConcat p.rest.head? = true
    · rw [if_pos hend]
      exact .pure hf (.inl rfl)
    · rw [if_neg hend]
      -- one more starred symbol, its edge, and what follows then
      refine Does.seq (parses_kleeneWith hsym p base hbase) (fun g q hq hg => ?_)
        fun t u ht hu => .inr (ht.concat hu)
      have hf := hf.mono hq.advances.grows.size_le
      refine Does.seq (.build (.join hf hg)) (fun k s hs hk => ?_) fun t u ht hu => by rwa [ht]
      have := ih (hs.le_size (hq.le_size hbase)) hk
      rwa [hs.alphabet_eq, hq.alphabet_eq] at this

theorem parses_concatWith (hsym : Parses .symbol level sym) :
    Parses .concat level (Parser.concatWith sym) := by
  intro p base hbase
  rw [Parser.concatWith]
  refine Does.seq (parses_kleeneWith hsym p base hbase) (fun f q hq hf => .get ?_)
    fun t u => Texts.concat
  rw [← hq.alphabet_eq]
  exact does_concatRest hsym _ (hq.le_size hbase) hf

/-- What follows in a union is nothing, or the sign for unions and another union. -/
theorem does_alternatives (hsym : Parses .symbol level sym) (fuel : Nat)
    (hbase : base ≤ p.nfa.size) :
    Does (Parser.alternatives sym fuel) p base (MoreUnion p.nfa.alphabet level)
      fun fs q => ∀ f ∈ fs, Above base q.nfa f := by
  induction fuel generalizing p with
  | zero => exact .pure (by simp) (.inl rfl)
  | succ fuel ih =>
    rw [Parser.alternatives]
    refine .peek rfl ?_
    by_cases hnext : p.rest.head? = some unionSign
    · obtain ⟨rest, hrest⟩ := List.head?_eq_some_iff.mp hnext
      rw [if_pos hnext]
      -- the sign, one more alternative, and what follows then
      refine Does.seq (.consume hrest) (fun _ q hq _ => ?_)
        fun t u ht hu => .inr ⟨u, by rw [ht], hu⟩
      have hsize := hq.le_size hbase
      rw [← hq.alphabet_eq]
      refine Does.seq (parses_concatWith hsym q base hsize) (fun f s hs hf => ?_)
        fun t u => Texts.union
      rw [← hs.alphabet_eq]
      refine Does.seq (ih (hs.le_size hsize)) (fun gs l hl hgs => .pure ?_ rfl) (U := (· = [])) ?_
      · rintro g hg
        rcases List.mem_cons.mp hg with rfl | hg
        · exact hf.mono hl.advances.grows.size_le
        · exact hgs g hg
      · rintro t u ht rfl
        rwa [List.append_nil]
    · rw [if_neg hnext]
      exact .pure (by simp) (.inl rfl)

theorem does_endOfUnion : Does Parser.endOfUnion p base (· = []) fun _ _ => True := by
  rw [Parser.endOfUnion]
  refine .peek rfl ?_
  cases p.rest.head? with
  | none => exact .pure trivial rfl
  | some c =>
    by_cases hc : c = closeGroup
    · simp only [if_pos hc]
      exact .pure trivial rfl
    · simp only [if_neg hc]
      exact .fail

theorem parses_unionWith (hsym : Parses .symbol level sym) :
    Parses .union level (Parser.unionWith sym) := by
  intro p base hbase
  rw [Parser.unionWith]
  refine Does.seq (parses_concatWith hsym p base hbase) (fun f q hq hf => .get ?_)
    fun t u => Texts.union
  have hsize := hq.le_size hbase
  rw [← hq.alphabet_eq]
  refine Does.seq (does_alternatives hsym _ hsize) (fun gs s hs hgs => ?_)
    (U := (· = [])) fun t u ht hu => by rwa [hu, List.append_nil]
  refine Does.seq does_endOfUnion (fun _ l hl _ => .build ?_) fun t u ht hu => by rw [ht, hu]; rfl
  -- the alternatives are put together at the end, when all of them are in the automaton
  have hle := hl.advances.grows.size_le
  exact .chooseAll (hl.le_size (hs.le_size hsize))
    (hf.mono (hs.advances.grows.size_le.trans hle)) fun g hg => (hgs g hg).mono hle

/-- A rule for groups closes the group that it opens, unless it fails. -/
theorem does_groupWith (hsym : Parses .symbol level sym) {rest : Text}
    (hrest : p.rest = openGroup :: rest) (hbase : base ≤ p.nfa.size) :
    Does (Parser.groupWith sym) p base (Texts p.nfa.alphabet .symbol (level + 1))
      fun f q => Above base q.nfa f := by
  rw [Parser.groupWith]
  refine .get ?_
  refine Does.seq (.consume hrest) (fun _ q hq _ => ?_)
    (U := fun u => ∃ t, Texts p.nfa.alphabet .union level t ∧ u = t ++ [closeGroup]) ?_
  · rw [← hq.alphabet_eq]
    refine Does.within (parses_unionWith hsym _ base (hq.le_size hbase)) (fun _ _ h => h)
      (fun f s _ hf => .peek rfl ?_) (U := (· = [closeGroup])) fun t u ht hu => ⟨t, ht, by rw [hu]⟩
    by_cases hclose : s.rest.head? = some closeGroup
    · obtain ⟨rest, hrest⟩ := List.head?_eq_some_iff.mp hclose
      rw [if_pos hclose]
      refine Does.seq (.consume hrest) (fun _ l _ hl => .pure ?_ rfl) (U := (· = [])) ?_
      · subst hl
        exact hf
      · rintro t u ht rfl
        rwa [List.append_nil]
    · rw [if_neg hclose]
      exact .fail
  · rintro t u rfl ⟨t, ⟨e, he⟩, rfl⟩
    rw [← List.append_assoc]
    exact ⟨e, .group he⟩

/-- The rule for symbols reads a literal or a group. -/
theorem parses_symbolWithin (level : Nat) : Parses .symbol level (Parser.symbolWithin level) := by
  induction level with
  | zero => exact parses_symbolWith fun _ _ _ _ _ => .fail
  | succ level ih =>
    exact parses_symbolWith fun p base rest hrest hbase => does_groupWith ih hrest hbase

/-- The rule for unions nests groups as deep as is left after the open ones. -/
theorem does_union (hbase : base ≤ p.nfa.size) :
    Does Parser.union p base (Texts p.nfa.alphabet .union (maxDepth - p.depth))
      fun f q => Above base q.nfa f := by
  rw [Parser.union]
  exact .get (parses_unionWith (parses_symbolWithin _) p base hbase)

/-! ### Whole expressions -/

theorem does_endOfText : Does Parser.endOfText p base (· = []) fun _ q => q.rest = [] := by
  rw [Parser.endOfText]
  cases hrest : p.rest with
  | nil => exact .peek (x := none) (by rw [hrest]; rfl) (.pure hrest rfl)
  | cons c rest => exact .peek (x := some c) (by rw [hrest]; rfl) .fail

/-- The rule for whole expressions reads all of the text. Up to the ends of the automaton, which it
sets when it succeeds, it only lets the automaton grow. -/
theorem ensures_parse (p : Parser) :
    Ensures Parser.parse p
      (fun f q => Texts p.nfa.alphabet .union (maxDepth - p.depth) p.rest ∧
        ∃ m, GrowsTo (· ∈ p.nfa.alphabet) p.nfa.size p.nfa (f, m) ∧
          q.nfa = { m with start := f.entry, finish := f.exit })
      (Advances p.nfa.size p) := by
  rw [Parser.parse]
  refine Ensures.bind (does_union p.nfa.size.le_refl) ?_
  rintro f q ⟨hq, hf⟩
  refine Ensures.bind
    (Ensures.mono does_endOfText (fun _ _ h => h) fun s hs => hq.advances.trans hs) ?_
  rintro - s ⟨hs, hrest⟩
  have hread := hq.trans hs (V := Texts p.nfa.alphabet .union (maxDepth - p.depth))
    fun t u ht hu => by rwa [hu, List.append_nil]
  obtain ⟨t, ht, hp⟩ := hread.exists_read
  rw [hrest, List.append_nil] at hp
  exact ⟨hp ▸ ht, s.nfa, ⟨hread.advances.grows, hf.mono hs.advances.grows.size_le⟩, rfl⟩

/-- An expression from which an automaton is built is derived by the grammar. -/
theorem exists_derives_of_toNfa {regex : Text} {alphabet : Alphabet} {n : Nfa}
    (h : toNfa regex alphabet = .ok n) : ∃ e, Derives alphabet .union maxDepth regex e := by
  have hparse := ensures_parse (.new regex alphabet)
  rw [Ensures] at hparse
  rw [toNfa] at h
  cases hr : Parser.parse (.new regex alphabet) with
  | ok f p =>
    rw [hr] at hparse
    exact hparse.1
  | error e p =>
    rw [hr] at h
    cases h

/-- An expression that is read into an automaton lets it grow, even if it is refused; only then the
ends of the automaton stay. -/
theorem grows_parseInto (regex : Text) (n : Nfa) :
    ∃ m, Nfa.Grows (· ∈ n.alphabet) n.size n m ∧
      ∃ start finish, (parseInto regex n).2 = { m with start, finish } := by
  have hparse := ensures_parse (.ofNfa regex n)
  rw [Ensures] at hparse
  rw [parseInto]
  cases hr : Parser.parse (.ofNfa regex n) with
  | ok f p =>
    rw [hr] at hparse
    obtain ⟨-, m, hm, hnfa⟩ := hparse
    exact ⟨m, hm.1, _, _, hnfa⟩
  | error e p =>
    rw [hr] at hparse
    exact ⟨p.nfa, hparse.grows, p.nfa.start, p.nfa.finish, rfl⟩

/-- No edge is refused on the way through an expression, even if the expression is. -/
theorem exists_builds_parseInto (regex : Text) (n : Nfa) :
    ∃ m, Nfa.Builds n m ∧ ∃ start finish, (parseInto regex n).2 = { m with start, finish } := by
  obtain ⟨m, hgrows, hends⟩ := grows_parseInto regex n
  exact ⟨m, hgrows.builds fun _ ha => ha, hends⟩

theorem wellFormed_parseInto {n : Nfa} (hn : n.WellFormed) (regex : Text) :
    (parseInto regex n).2.WellFormed := by
  obtain ⟨m, hgrows, start, finish, heq⟩ := grows_parseInto regex n
  rw [heq]
  exact (hgrows.wellFormed hn).withEnds start finish

/-- Building an automaton is reading the expression into the automaton without states. -/
theorem toNfa_eq_map_parseInto (regex : Text) (alphabet : Alphabet) :
    let r := parseInto regex (.empty alphabet)
    toNfa regex alphabet = r.1.map fun _ => r.2 := by
  rw [toNfa, parseInto, Parser.new]
  cases Parser.parse (.ofNfa regex (.empty alphabet)) <;> rfl

end Rules

end RegexAutomata.Regex
