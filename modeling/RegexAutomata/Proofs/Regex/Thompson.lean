/-
The automaton of a regular expression.

* `exists_toNfa_eq_ok_iff`, `valid_validate_iff` — an automaton is built from exactly the texts that
  the grammar derives, and only they are told to be valid;
* `exists_toNfa_accepts_iff` — it accepts exactly the texts that the expression describes.

The automaton is the fragment of the expression, built in an automaton without states, with the ends
of the fragment as its start and its final state.
-/
import RegexAutomata.Proofs.Regex.Reading
import RegexAutomata.Regex.Validate

namespace RegexAutomata.Regex

variable {alphabet : Alphabet} {regex : Text} {e : Expr}

/-- The automaton of an expression: its fragment, with the ends as start and final state. -/
def Expr.toNfa (e : Expr) (alphabet : Alphabet) : Nfa :=
  { (e.compile (.empty alphabet)).2 with
    start := (e.compile (.empty alphabet)).1.entry
    finish := (e.compile (.empty alphabet)).1.exit }

theorem Expr.alphabet_toNfa (e : Expr) (alphabet : Alphabet) :
    (e.toNfa alphabet).alphabet = alphabet := alphabet_compile e (.empty alphabet)

theorem Expr.wellFormed_toNfa (e : Expr) (alphabet : Alphabet) : (e.toNfa alphabet).WellFormed :=
  (e.wellFormed_compile (.empty alphabet)).withEnds _ _

/-- The texts on the paths through the automaton of an expression. -/
theorem Expr.path_toNfa (e : Expr) (alphabet : Alphabet) (w : Text) :
    (e.toNfa alphabet).Path (e.toNfa alphabet).start w (e.toNfa alphabet).finish ↔
      w ∈ e.language := by
  rw [← e.between_compile (.empty alphabet), Nfa.mem_between]
  exact Nfa.Path.withEnds_iff

theorem Expr.accepts_toNfa (e : Expr) (alphabet : Alphabet) (w : Text) :
    (e.toNfa alphabet).accepts w = true ↔ w ∈ e.language := by
  rw [Nfa.accepts_iff_path (e.wellFormed_toNfa alphabet), e.path_toNfa]

/-! ### Reading and building -/

/-- An automaton is built without error exactly from the expressions that the grammar derives with
at most `maxDepth` groups in each other. -/
theorem exists_toNfa_eq_ok_iff (regex : Text) (alphabet : Alphabet) :
    (∃ n, toNfa regex alphabet = .ok n) ↔ ∃ e, Derives alphabet .union maxDepth regex e := by
  constructor
  · rintro ⟨n, hn⟩
    exact exists_derives_of_toNfa hn
  · rintro ⟨e, he⟩
    exact ⟨_, toNfa_of_derives he⟩

theorem valid_validate_iff (regex : Text) (alphabet : Alphabet) :
    (validate regex alphabet).member? "valid" = some (.bool true) ↔
      ∃ e, Derives alphabet .union maxDepth regex e := by
  rw [validate]
  cases hn : toNfa regex alphabet with
  | ok n => exact iff_of_true rfl (exists_derives_of_toNfa hn)
  | error err =>
    refine iff_of_false ?_ ?_
    · rintro ⟨⟩
    · rintro ⟨e, he⟩
      rw [toNfa_of_derives he] at hn
      cases hn

/-- If an automaton was built, then it is that of any expression that is derived. -/
theorem eq_toNfa_of_derives {n : Nfa} (hn : toNfa regex alphabet = .ok n)
    (h : Derives alphabet .union maxDepth regex e) : n = e.toNfa alphabet := by
  rw [toNfa_of_derives h, Except.ok.injEq] at hn
  exact hn.symm

/-- The automaton of a text accepts what the text describes. -/
theorem describes_iff_accepts {n : Nfa} (hn : toNfa regex alphabet = .ok n) (w : Text) :
    Describes alphabet regex w ↔ n.accepts w = true := by
  constructor
  · rintro ⟨e, he, hw⟩
    rw [eq_toNfa_of_derives hn he]
    exact (e.accepts_toNfa alphabet w).mpr hw
  · intro hw
    obtain ⟨e, he⟩ := exists_derives_of_toNfa hn
    rw [eq_toNfa_of_derives hn he] at hw
    exact ⟨e, he, (e.accepts_toNfa alphabet w).mp hw⟩

/-- An automaton is built from every expression that the grammar derives, and it accepts the texts
that the expression describes. -/
theorem exists_toNfa_accepts_iff (h : Derives alphabet .union maxDepth regex e) :
    ∃ n, toNfa regex alphabet = .ok n ∧ ∀ w, n.accepts w = true ↔ w ∈ e.language :=
  ⟨e.toNfa alphabet, toNfa_of_derives h, e.accepts_toNfa alphabet⟩

/-- A repetition of a loop and a literal. The inner star loops on the ends of its literal; the outer
star cannot do so, since a loop enters what it repeats. -/
theorem derives_star_of_star : Derives (.ofTexts ["ab"]) .union maxDepth "(a*b)*"
    (.star (.concat (.star (.literal 'a')) (.literal 'b'))) := by
  have hregex : ("(a*b)*" : Text) =
      [openGroup] ++ (([CodePoint.ofChar 'a'] ++ [starSign]) ++ [CodePoint.ofChar 'b']) ++
        [closeGroup] ++ [starSign] := by decide
  have ha : [CodePoint.ofChar 'a'] ∈ Alphabet.ofTexts ["ab"] :=
    Alphabet.mem_ofTexts.mpr ⟨_, List.mem_singleton_self _, _, List.mem_cons_self, rfl⟩
  have hb : [CodePoint.ofChar 'b'] ∈ Alphabet.ofTexts ["ab"] :=
    Alphabet.mem_ofTexts.mpr ⟨_, List.mem_singleton_self _, _, by decide, rfl⟩
  rw [hregex]
  exact .alternative (.kleene (.star (.group (.alternative (.concat
    (.star (.literal (by decide) ha)) (.kleene (.symbol (.literal (by decide) hb))))))))

theorem exists_toNfa_star_of_star :
    ∃ n, toNfa "(a*b)*" (.ofTexts ["ab"]) = .ok n ∧ ∀ w, n.accepts w = true ↔
      w ∈ (Expr.star (.concat (.star (.literal 'a')) (.literal 'b'))).language :=
  exists_toNfa_accepts_iff derives_star_of_star

end RegexAutomata.Regex
