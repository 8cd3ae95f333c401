/-
Expressions and the grammar of their texts.

A union is a concatenation that may be followed by the sign for unions and a union; a concatenation
is one or more starred symbols; a starred symbol is a symbol that may be followed by a star; and a
symbol is a literal or a union in parentheses. Both lists nest to the right.

* `Expr` — an expression, without its parentheses;
* `Expr.language` — the texts that an expression describes;
* `Derives` — the grammar, which relates texts to expressions;
* `Describes` — the texts that the text of an expression describes.
-/
import RegexAutomata.Regex.Parser
import Mathlib.Computability.Language

namespace RegexAutomata.Regex

open Computability

/-- A regular expression. -/
inductive Expr where
  | literal (c : CodePoint)
  | concat (e f : Expr)
  | union (e f : Expr)
  | star (e : Expr)
deriving DecidableEq

/-- The texts that an expression describes. -/
def Expr.language : Expr → Language CodePoint
  | literal c => {[c]}
  | concat e f => e.language * f.language
  | union e f => e.language + f.language
  | star e => e.language∗

/-- What a text can be derived as. -/
inductive Category where
  | symbol
  | kleene
  | concat
  | union
deriving DecidableEq

/-- The grammar. `Derives alphabet x k t e` says that the text `t` is an `x` over the alphabet which
nests groups at most `k` deep, and that its expression is `e`. -/
inductive Derives (alphabet : Alphabet) : Category → Nat → Text → Expr → Prop where
  | literal {k : Nat} {c : CodePoint} : isOperator c = false → [c] ∈ alphabet →
    Derives alphabet .symbol k [c] (.literal c)
  | group {k : Nat} {t : Text} {e : Expr} : Derives alphabet .union k t e →
    Derives alphabet .symbol (k + 1) ([openGroup] ++ t ++ [closeGroup]) e
  | symbol {k : Nat} {t : Text} {e : Expr} : Derives alphabet .symbol k t e →
    Derives alphabet .kleene k t e
  | star {k : Nat} {t : Text} {e : Expr} : Derives alphabet .symbol k t e →
    Derives alphabet .kleene k (t ++ [starSign]) (.star e)
  | kleene {k : Nat} {t : Text} {e : Expr} : Derives alphabet .kleene k t e →
    Derives alphabet .concat k t e
  | concat {k : Nat} {t u : Text} {e f : Expr} : Derives alphabet .kleene k t e →
    Derives alphabet .concat k u f → Derives alphabet .concat k (t ++ u) (.concat e f)
  | alternative {k : Nat} {t : Text} {e : Expr} : Derives alphabet .concat k t e →
    Derives alphabet .union k t e
  | union {k : Nat} {t u : Text} {e f : Expr} : Derives alphabet .concat k t e →
    Derives alphabet .union k u f → Derives alphabet .union k (t ++ [unionSign] ++ u) (.union e f)

/-- An expression over an alphabet, given as a text, describes a text. -/
def Describes (alphabet : Alphabet) (regex w : Text) : Prop :=
  ∃ e, Derives alphabet .union maxDepth regex e ∧ w ∈ e.language

namespace Derives

variable {alphabet : Alphabet} {x : Category} {k : Nat} {t : Text} {e : Expr}

theorem ne_nil (h : Derives alphabet x k t e) : t ≠ [] := by
  induction h with
  | literal => simp
  | group => simp
  | symbol _ ih => exact ih
  | star => simp
  | kleene _ ih => exact ih
  | concat _ _ ih => simp [ih]
  | alternative _ ih => exact ih
  | union => simp

/-- A derived text begins with a literal or opens a group. -/
theorem exists_cons (h : Derives alphabet x k t e) :
    ∃ c u, t = c :: u ∧ (c = openGroup ∨ isOperator c = false) := by
  induction h with
  | literal hc _ => exact ⟨_, _, rfl, .inr hc⟩
  | group => exact ⟨openGroup, _, rfl, .inl rfl⟩
  | symbol _ ih => exact ih
  | star _ ih =>
    obtain ⟨c, u, rfl, hc⟩ := ih
    exact ⟨c, _, rfl, hc⟩
  | kleene _ ih => exact ih
  | concat _ _ ih =>
    obtain ⟨c, u, rfl, hc⟩ := ih
    exact ⟨c, _, rfl, hc⟩
  | alternative _ ih => exact ih
  | union _ _ ih =>
    obtain ⟨c, u, rfl, hc⟩ := ih
    exact ⟨c, _, rfl, hc⟩

end Derives

end RegexAutomata.Regex
