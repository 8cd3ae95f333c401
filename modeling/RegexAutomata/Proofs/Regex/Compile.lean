/-
The automaton of an expression, built along the expression.

`Expr.compile` builds the fragment of an expression in an automaton: the parts of an expression from
left to right, then what holds them together.

* `Expr.compile_eq_beside` — the fragment is the one built in an automaton without states, with
  higher numbers;
* `Expr.between_compile` — the texts that lead through the fragment are those that the expression
  describes.
-/
import RegexAutomata.Proofs.Nfa.Append
import RegexAutomata.Proofs.Nfa.Growth
import RegexAutomata.Proofs.Regex.Grammar

namespace RegexAutomata.Regex.Expr

open Nfa (Fragment)

/-- Builds the fragment of an expression. -/
def compile : Expr → Nfa → Fragment × Nfa
  | literal c, n => Nfa.literal [c] n
  | concat e f, n =>
    let (a, n) := compile e n
    let (b, n) := compile f n
    Nfa.join a b n
  | union e f, n =>
    let (a, n) := compile e n
    let (b, n) := compile f n
    Nfa.choose a b n
  | star e, n =>
    let (a, n) := compile e n
    Nfa.star a n

variable {n m : Nfa}

theorem compile_literal (c : CodePoint) (n : Nfa) :
    compile (.literal c) n = Nfa.literal [c] n := rfl

theorem compile_concat (e f : Expr) (n : Nfa) : compile (.concat e f) n =
    Nfa.join (e.compile n).1 (f.compile (e.compile n).2).1 (f.compile (e.compile n).2).2 := rfl

theorem compile_union (e f : Expr) (n : Nfa) : compile (.union e f) n =
    Nfa.choose (e.compile n).1 (f.compile (e.compile n).2).1 (f.compile (e.compile n).2).2 := rfl

theorem compile_star (e : Expr) (n : Nfa) :
    compile (.star e) n = Nfa.star (e.compile n).1 (e.compile n).2 := rfl

/-! ### The fragment as a block of states -/

/-- An expression is built from new states and edges between them. -/
theorem growsTo_compile (e : Expr) {base : Nat} (hn : base ≤ n.size) :
    Nfa.GrowsTo (fun _ => True) base n (e.compile n) := by
  induction e generalizing n with
  | literal c => exact .literal hn trivial
  | concat e f ihe ihf =>
    have he := ihe hn
    have hf := ihf (hn.trans he.1.size_le)
    exact (he.1.trans hf.1).growsTo (.join (he.2.mono hf.1.size_le) hf.2)
  | union e f ihe ihf =>
    have he := ihe hn
    have hf := ihf (hn.trans he.1.size_le)
    have h := he.1.trans hf.1
    exact h.growsTo (.choose (hn.trans h.size_le) (he.2.mono hf.1.size_le) hf.2)
  | star e ih =>
    have he := ih hn
    exact he.1.growsTo (.star (hn.trans he.1.size_le) he.2)

theorem size_le_compile (e : Expr) (n : Nfa) : n.size ≤ (e.compile n).2.size :=
  (e.growsTo_compile n.size.le_refl).1.size_le

theorem holds_compile (e : Expr) (n : Nfa) : (e.compile n).2.Holds (e.compile n).1 :=
  (e.growsTo_compile n.size.le_refl).2.holds

theorem wellFormed_compile (e : Expr) (h : n.WellFormed) : (e.compile n).2.WellFormed :=
  (e.growsTo_compile n.size.le_refl).1.wellFormed h

/-- The fragment of an expression, as it is built in an automaton without states. -/
def block (e : Expr) : Fragment × Nfa := e.compile (.empty ∅)

theorem holds_block (e : Expr) : e.block.2.Holds e.block.1 := e.holds_compile _

theorem wellFormed_block (e : Expr) : e.block.2.WellFormed := e.wellFormed_compile (.empty ∅)

/-- Two parts that are built one after the other lie together behind the states before them. -/
theorem compile_compile_eq_beside {e f : Expr} (he : ∀ n, e.compile n = n.beside e.block)
    (hf : ∀ n, f.compile n = n.beside f.block) (n : Nfa) :
    f.compile (e.compile n).2 = n.beside (f.compile e.block.2) := by
  rw [he, hf, hf]
  exact Nfa.beside_beside n e.block.2 f.block

/-- What is built behind some states does not depend on them. -/
theorem compile_eq_beside (e : Expr) (n : Nfa) : e.compile n = n.beside e.block := by
  induction e generalizing n with
  | literal c => exact Nfa.literal_eq_beside n [c]
  | concat e f ihe ihf =>
    have he := e.holds_block.mono (f.size_le_compile e.block.2)
    have hf := f.holds_compile e.block.2
    rw [compile_concat, compile_compile_eq_beside ihe ihf, ihe]
    exact Nfa.join_append n he hf
  | union e f ihe ihf =>
    have he := e.holds_block.mono (f.size_le_compile e.block.2)
    have hf := f.holds_compile e.block.2
    rw [compile_union, compile_compile_eq_beside ihe ihf, ihe]
    exact Nfa.choose_append n he hf
  | star e ih =>
    rw [compile_star, ih]
    exact Nfa.star_append n e.holds_block

/-- Building a fragment and linking two older states can be done in either order. -/
theorem compile_link (e : Expr) {p q : Int} (hp : n.IsAllocated p) (hq : n.IsAllocated q)
    (a : Symbol) :
    e.compile (n.link p a q) = ((e.compile n).1, (e.compile n).2.link p a q) := by
  rw [compile_eq_beside, compile_eq_beside e n, Nfa.beside, Nfa.beside, Nfa.size_link,
    Nfa.link_append_left _ hp hq]

/-! ### The language of the fragment -/

/-- The fragments of two parts of an expression are built apart from each other. -/
theorem between_compile_compile (e f : Expr) :
    ∃ S T : Int → Prop, (f.compile e.block.2).2.Confined S e.block.1 ∧
      (f.compile e.block.2).2.Confined T (f.compile e.block.2).1 ∧
      (∀ q, S q → ¬T q) ∧
      (f.compile e.block.2).2.between e.block.1 = e.block.2.between e.block.1 ∧
      (f.compile e.block.2).2.between (f.compile e.block.2).1 = f.block.2.between f.block.1 := by
  have he := Nfa.Confined.all e.wellFormed_block e.holds_block
  rw [compile_eq_beside]
  refine ⟨_, _, he.append_left _, Nfa.confined_append_right _ f.wellFormed_block f.holds_block,
    fun q hS hT => ?_, Nfa.between_append_left he _,
    Nfa.between_append_right _ f.wellFormed_block f.holds_block⟩
  have := he.lt_size hS
  omega

/-- The texts that lead through the fragment of an expression are those that it describes. -/
theorem between_block (e : Expr) : e.block.2.between e.block.1 = e.language := by
  induction e with
  | literal c => exact Nfa.between_literal c _
  | concat e f ihe ihf =>
    obtain ⟨S, T, hS, hT, hapart, he, hf⟩ := between_compile_compile e f
    have := Nfa.between_join hS hT hapart
    rwa [he, hf, ihe, ihf] at this
  | union e f ihe ihf =>
    obtain ⟨S, T, hS, hT, hapart, he, hf⟩ := between_compile_compile e f
    have := Nfa.between_choose hS hT hapart
    rwa [he, hf, ihe, ihf] at this
  | star e ih =>
    have := Nfa.between_star e.wellFormed_block e.holds_block
    rwa [ih] at this

theorem between_compile (e : Expr) (n : Nfa) :
    (e.compile n).2.between (e.compile n).1 = e.language := by
  rw [compile_eq_beside, ← between_block]
  exact Nfa.between_append_right n e.wellFormed_block e.holds_block

end RegexAutomata.Regex.Expr
