/-
The grammar is unambiguous.

A derived text can be cut off the text that it begins in one way only, if what follows cannot be
read as more of it, and it has one expression only (`Determined`).

* `determined_of_derives` — this holds for the texts of every category, rule by rule;
* `Derives.unique` — a text has at most one expression.

Two derivations of one category may end with different rules. The code point behind the shorter text
then says that they cannot: a star, the sign for unions, or the beginning of another symbol.
-/
import RegexAutomata.Proofs.Regex.Reading

namespace RegexAutomata.Regex

variable {alphabet : Alphabet} {k k' : Nat} {t t' u u' : Text} {e e' : Expr}

/-- The sign for unions ends a concatenation, but no union. -/
theorem follows_unionSign (v : Text) : Follows .concat (unionSign :: v) := rfl

theorem not_follows_unionSign (v : Text) : ¬Follows .union (unionSign :: v) := by
  rw [Follows, List.head?_cons]
  decide

/-- A text of a category is determined by the text that it begins, and determines its expression. -/
def Determined (alphabet : Alphabet) (x : Category) (t : Text) (e : Expr) : Prop :=
  ∀ {k' t' e' u u'}, Derives alphabet x k' t' e' → Follows x u → Follows x u' →
    t ++ u = t' ++ u' → t = t' ∧ u = u' ∧ e = e'

theorem determined_literal {c : CodePoint} (hc : isOperator c = false) :
    Determined alphabet .symbol [c] (.literal c) := by
  intro k' t' e' u u' h' _ _ heq
  cases h' with
  | literal _ _ =>
    obtain ⟨rfl, rfl⟩ := List.cons.inj heq
    exact ⟨rfl, rfl, rfl⟩
  | group _ =>
    obtain ⟨rfl, -⟩ := List.cons.inj heq
    exact absurd hc (by decide)

theorem determined_group (ih : Determined alphabet .union t e) :
    Determined alphabet .symbol ([openGroup] ++ t ++ [closeGroup]) e := by
  intro k' t' e' u u' h' _ _ heq
  cases h' with
  | literal hc _ =>
    obtain ⟨rfl, -⟩ := List.cons.inj heq
    exact absurd hc (by decide)
  | group h' =>
    simp only [List.append_assoc, List.singleton_append] at heq
    obtain ⟨rfl, hrest, rfl⟩ := ih h' (.inr rfl) (.inr rfl) (List.cons.inj heq).2
    exact ⟨rfl, (List.cons.inj hrest).2, rfl⟩

theorem determined_kleene (ih : Determined alphabet .symbol t e) :
    Determined alphabet .kleene t e := by
  intro k' t' e' u u' h' hu _ heq
  cases h' with
  | symbol h' => exact ih h' trivial trivial heq
  | star h' =>
    rw [List.append_assoc] at heq
    obtain ⟨-, rfl, -⟩ := ih h' trivial trivial heq
    exact absurd rfl hu

theorem determined_star (ih : Determined alphabet .symbol t e) :
    Determined alphabet .kleene (t ++ [starSign]) (.star e) := by
  intro k' t' e' u u' h' _ hu' heq
  rw [List.append_assoc] at heq
  cases h' with
  | symbol h' =>
    obtain ⟨-, rfl, -⟩ := ih h' trivial trivial heq
    exact absurd rfl hu'
  | star h' =>
    rw [List.append_assoc] at heq
    obtain ⟨rfl, hrest, rfl⟩ := ih h' trivial trivial heq
    exact ⟨rfl, (List.cons.inj hrest).2, rfl⟩

theorem determined_concat_kleene (ih : Determined alphabet .kleene t e) :
    Determined alphabet .concat t e := by
  intro k' t' e' u u' h' hu hu' heq
  cases h' with
  | kleene h' => exact ih h' hu.kleene hu'.kleene heq
  | concat h' hv' =>
    rw [List.append_assoc] at heq
    obtain ⟨-, rfl, -⟩ := ih h' hu.kleene (head?_of_derives hv' u').2 heq
    exact absurd hu (head?_of_derives hv' u').1

theorem determined_concat {v : Text} {g : Expr} (hv : Derives alphabet .concat k v g)
    (ih : Determined alphabet .kleene t e) (ihv : Determined alphabet .concat v g) :
    Determined alphabet .concat (t ++ v) (.concat e g) := by
  intro k' t' e' u u' h' hu hu' heq
  rw [List.append_assoc] at heq
  cases h' with
  | kleene h' =>
    obtain ⟨-, rfl, -⟩ := ih h' (head?_of_derives hv u).2 hu'.kleene heq
    exact absurd hu' (head?_of_derives hv u).1
  | concat h' hv' =>
    rw [List.append_assoc] at heq
    obtain ⟨rfl, hrest, rfl⟩ := ih h' (head?_of_derives hv u).2 (head?_of_derives hv' u').2 heq
    obtain ⟨rfl, rfl, rfl⟩ := ihv hv' hu hu' hrest
    exact ⟨rfl, rfl, rfl⟩

theorem determined_alternative (ih : Determined alphabet .concat t e) :
    Determined alphabet .union t e := by
  intro k' t' e' u u' h' hu hu' heq
  cases h' with
  | alternative h' => exact ih h' hu.concat hu'.concat heq
  | union h' _ =>
    simp only [List.append_assoc, List.singleton_append] at heq
    obtain ⟨-, rfl, -⟩ := ih h' hu.concat (follows_unionSign _) heq
    exact absurd hu (not_follows_unionSign _)

theorem determined_union {v : Text} {g : Expr} (ih : Determined alphabet .concat t e)
    (ihv : Determined alphabet .union v g) :
    Determined alphabet .union (t ++ [unionSign] ++ v) (.union e g) := by
  intro k' t' e' u u' h' hu hu' heq
  simp only [List.append_assoc, List.singleton_append] at heq
  cases h' with
  | alternative h' =>
    obtain ⟨-, rfl, -⟩ := ih h' (follows_unionSign _) hu'.concat heq
    exact absurd hu' (not_follows_unionSign _)
  | union h' hv' =>
    simp only [List.append_assoc, List.singleton_append] at heq
    obtain ⟨rfl, hrest, rfl⟩ := ih h' (follows_unionSign _) (follows_unionSign _) heq
    obtain ⟨rfl, rfl, rfl⟩ := ihv hv' hu hu' (List.cons.inj hrest).2
    exact ⟨rfl, rfl, rfl⟩

theorem determined_of_derives {x : Category} (h : Derives alphabet x k t e) :
    Determined alphabet x t e := by
  induction h with
  | literal hc _ => exact determined_literal hc
  | group _ ih => exact determined_group ih
  | symbol _ ih => exact determined_kleene ih
  | star _ ih => exact determined_star ih
  | kleene _ ih => exact determined_concat_kleene ih
  | concat _ hv ih ihv => exact determined_concat hv ih ihv
  | alternative _ ih => exact determined_alternative ih
  | union _ _ ih ihv => exact determined_union ih ihv

/-- A text has at most one expression, whatever the number of groups that may be nested. -/
theorem Derives.unique (h : Derives alphabet .union k t e) (h' : Derives alphabet .union k' t e') :
    e = e' :=
  (determined_of_derives h h' (.inl rfl) (.inl rfl) (rfl : t ++ [] = t ++ [])).2.2

end RegexAutomata.Regex
