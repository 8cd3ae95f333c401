/-
No state of the automaton of an expression is useless.

A path leads from the entry of a fragment to each of its states, and from each of them to the exit
(`Nfa.Trim`).

* `Nfa.trim_join`, `Nfa.trim_choose`, `Nfa.trim_star` — the operations on fragments keep this;
* `Expr.trim_compile` — so it holds of the new states of every expression;
* `Expr.trim_toNfa` — and of all states of its automaton.
-/
import RegexAutomata.Proofs.Regex.Thompson

namespace RegexAutomata

namespace Nfa

variable {n m : Nfa} {f g : Fragment} {S T : Int → Prop}

/-- The states of a region lie on paths through a fragment. -/
structure Trim (n : Nfa) (S : Int → Prop) (f : Fragment) : Prop where
  reached : ∀ q, S q → ∃ w, n.Path f.entry w q
  leaves : ∀ q, S q → ∃ w, n.Path q w f.exit

namespace Trim

theorem mono (hedge : ∀ {p a q}, n.Edge p a q → m.Edge p a q) (h : n.Trim S f) : m.Trim S f where
  reached q hq := (h.reached q hq).imp fun _ hw => hw.mono hedge
  leaves q hq := (h.leaves q hq).imp fun _ hw => hw.mono hedge

theorem imp (hTS : ∀ q, T q → S q) (h : n.Trim S f) : n.Trim T f where
  reached q hq := h.reached q (hTS q hq)
  leaves q hq := h.leaves q (hTS q hq)

theorem union (hS : n.Trim S f) (hT : n.Trim T f) : n.Trim (fun q => S q ∨ T q) f where
  reached q hq := hq.elim (hS.reached q) (hT.reached q)
  leaves q hq := hq.elim (hS.leaves q) (hT.leaves q)

/-- A fragment with a path through it in the middle of a larger one. -/
theorem within (h : n.Trim S f) {u v : Text} (hu : n.Path g.entry u f.entry)
    (hv : n.Path f.exit v g.exit) : n.Trim S g where
  reached q hq := by
    obtain ⟨w, hw⟩ := h.reached q hq
    exact ⟨u ++ w, hu.append hw⟩
  leaves q hq := by
    obtain ⟨w, hw⟩ := h.leaves q hq
    exact ⟨w ++ v, hw.append hv⟩

/-- The ends of a fragment with a path through it. -/
theorem ends {w : Text} (h : n.Path f.entry w f.exit) :
    n.Trim (fun q => q = f.entry ∨ q = f.exit) f where
  reached q hq := by
    rcases hq with rfl | rfl
    · exact ⟨[], .nil _⟩
    · exact ⟨w, h⟩
  leaves q hq := by
    rcases hq with rfl | rfl
    · exact ⟨w, h⟩
    · exact ⟨[], .nil _⟩

end Trim

/-- The states from a number on. -/
def Since (base : Nat) (n : Nfa) (q : Int) : Prop := base ≤ q ∧ q < n.size

/-- The two states that an operation creates for the ends of its fragment. -/
def NewEnd (n : Nfa) (q : Int) : Prop := q = n.newEnds.entry ∨ q = n.newEnds.exit

theorem Since.or_newEnd {base : Nat} {q : Int} (hm : m.size = n.size + 2) (h : Since base m q) :
    Since base n q ∨ n.NewEnd q := by
  simp only [Since, NewEnd, newEnds] at h ⊢
  omega

theorem trim_literal (c : CodePoint) (n : Nfa) :
    (literal [c] n).2.Trim n.NewEnd (literal [c] n).1 := by
  rw [literal_fst]
  exact Trim.ends (.read (edge_literal.mpr (.inr ⟨rfl, rfl, rfl⟩)) (.nil _))

theorem trim_join (hf : n.Holds f) (hS : n.Trim S f) (hT : n.Trim T g) (hentry : S f.entry)
    (hexit : T g.exit) : (join f g n).2.Trim (fun q => S q ∨ T q) (join f g n).1 := by
  have hmono {p a q} (he : n.Edge p a q) : (join f g n).2.Edge p a q :=
    (edge_join hf).mpr (.inl he)
  have hjoin : (join f g n).2.Path f.exit [] g.entry :=
    .silent ((edge_join hf).mpr (.inr ⟨rfl, rfl, rfl⟩)) (.nil _)
  -- what lies in one part is completed by a path through the other part
  obtain ⟨u, hu⟩ := (hS.mono hmono).leaves _ hentry
  obtain ⟨v, hv⟩ := (hT.mono hmono).reached _ hexit
  exact .union ((hS.mono hmono).within (.nil _) (hjoin.append hv))
    ((hT.mono hmono).within (hu.append hjoin) (.nil _))

theorem trim_choose (hf : n.Holds f) (hg : n.Holds g) (hS : n.Trim S f) (hT : n.Trim T g)
    (hentry : S f.entry) :
    (choose f g n).2.Trim (fun q => (S q ∨ T q) ∨ n.NewEnd q) (choose f g n).1 := by
  have hedge {p a q} := edge_choose (p := p) (b := a) (q := q) hf hg
  have hmono {p a q} (he : n.Edge p a q) : (choose f g n).2.Edge p a q := hedge.mpr (.inl he)
  have hfirst {q} (hq : q = f.entry ∨ q = g.entry) : (choose f g n).2.Path n.size [] q :=
    .silent (hedge.mpr (.inr (.inl ⟨rfl, rfl, hq⟩))) (.nil _)
  have hlast {p} (hp : p = f.exit ∨ p = g.exit) : (choose f g n).2.Path p [] (n.size + 1) :=
    .silent (hedge.mpr (.inr (.inr ⟨hp, rfl, rfl⟩))) (.nil _)
  rw [choose_fst]
  have hf' := (hS.mono hmono).within (g := n.newEnds) (hfirst (.inl rfl)) (hlast (.inl rfl))
  have hg' := (hT.mono hmono).within (g := n.newEnds) (hfirst (.inr rfl)) (hlast (.inr rfl))
  obtain ⟨w, hw⟩ := hf'.leaves _ hentry
  exact .union (.union hf' hg') (.ends ((hfirst (.inl rfl)).append hw))

theorem trim_wrap (hf : n.Holds f) (hS : n.Trim S f) (hentry : S f.entry) :
    (wrap f n).2.Trim (fun q => S q ∨ n.NewEnd q) (wrap f n).1 := by
  have hedge {p a q} := edge_wrap (p := p) (b := a) (q := q) hf
  have hmono {p a q} (he : n.Edge p a q) : (wrap f n).2.Edge p a q := hedge.mpr (.inl he)
  have hfirst : (wrap f n).2.Path n.size [] f.entry :=
    .silent (hedge.mpr (.inr (.inl ⟨rfl, rfl, rfl⟩))) (.nil _)
  have hlast : (wrap f n).2.Path f.exit [] (n.size + 1) :=
    .silent (hedge.mpr (.inr (.inr ⟨rfl, rfl, rfl⟩))) (.nil _)
  rw [wrap_fst]
  have hf' := (hS.mono hmono).within (g := n.newEnds) hfirst hlast
  obtain ⟨w, hw⟩ := hf'.leaves _ hentry
  exact .union hf' (.ends (hfirst.append hw))

theorem trim_loop (hf : n.Holds f) (hS : n.Trim S f) : (loop f n).2.Trim S (loop f n).1 :=
  hS.mono fun he => (edge_loop hf).mpr (.inl he)

theorem trim_star {base : Nat} (hf : n.Holds f) (h : n.Trim (Since base n) f)
    (hentry : base ≤ f.entry) :
    (star f n).2.Trim (Since base (star f n).2) (star f n).1 := by
  have hentry : Since base n f.entry := ⟨hentry, hf.entry.2⟩
  rw [star_eq]
  by_cases hwrap : (n.hasIncoming f.entry || n.hasOutgoing f.exit) = true
  · rw [if_pos hwrap]
    refine (trim_loop (holds_wrap f n) (trim_wrap hf h hentry)).imp fun q hq => ?_
    exact hq.or_newEnd (by simp)
  · rw [if_neg hwrap]
    refine (trim_loop hf h).imp fun q hq => ?_
    rwa [Since, size_loop] at hq

end Nfa

namespace Regex

open Nfa (Since)

variable {n : Nfa}

namespace Expr

/-- The states of two parts of an expression that are built one after the other. -/
theorem trim_parts {e f : Expr}
    (he : (e.compile n).2.Trim (Since n.size (e.compile n).2) (e.compile n).1) :
    (f.compile (e.compile n).2).2.Trim (Since n.size (e.compile n).2) (e.compile n).1 :=
  he.mono fun h => (f.growsTo_compile (e.compile n).2.size.le_refl).1.edge h

/-- Each new state lies on a path through the fragment of an expression. -/
theorem trim_compile (e : Expr) (n : Nfa) :
    (e.compile n).2.Trim (Since n.size (e.compile n).2) (e.compile n).1 := by
  induction e generalizing n with
  | literal c =>
    refine (Nfa.trim_literal c n).imp fun q hq => ?_
    rcases hq.or_newEnd (n := n) (by rw [compile_literal, Nfa.size_literal]) with hq | hq
    · have := hq.1
      have := hq.2
      omega
    · exact hq
  | concat e f ihe ihf =>
    have he := (e.growsTo_compile n.size.le_refl).2
    have hf := (f.growsTo_compile (e.compile n).2.size.le_refl).2
    have hsize := f.size_le_compile (e.compile n).2
    -- the new states are those of one part or those of the other
    refine (Nfa.trim_join (he.holds.mono hsize) (trim_parts (ihe n)) (ihf (e.compile n).2)
      ⟨he.le_entry, he.holds.entry.2⟩ ⟨hf.le_exit, hf.holds.exit.2⟩).imp fun q hq => ?_
    rw [compile_concat, Since, Nfa.size_join] at hq
    simp only [Since]
    omega
  | union e f ihe ihf =>
    have he := (e.growsTo_compile n.size.le_refl).2
    have hf := (f.growsTo_compile (e.compile n).2.size.le_refl).2
    have hsize := f.size_le_compile (e.compile n).2
    refine (Nfa.trim_choose (he.holds.mono hsize) hf.holds (trim_parts (ihe n))
      (ihf (e.compile n).2) ⟨he.le_entry, he.holds.entry.2⟩).imp fun q hq => ?_
    rcases hq.or_newEnd (n := (f.compile (e.compile n).2).2)
      (by rw [compile_union, Nfa.size_choose]) with hq | hq
    · simp only [Since] at hq ⊢
      omega
    · exact .inr hq
  | star e ih =>
    have he := (e.growsTo_compile n.size.le_refl).2
    exact Nfa.trim_star he.holds (ih n) he.le_entry

/-- Each state of the automaton of an expression is on a path from its start to its final state. -/
theorem trim_toNfa (e : Expr) (alphabet : Alphabet) {q : Int}
    (hq : (e.toNfa alphabet).IsAllocated q) :
    (∃ w, (e.toNfa alphabet).Path (e.toNfa alphabet).start w q) ∧
      ∃ w, (e.toNfa alphabet).Path q w (e.toNfa alphabet).finish := by
  have h := e.trim_compile (.empty alphabet)
  obtain ⟨u, hu⟩ := h.reached q hq
  obtain ⟨v, hv⟩ := h.leaves q hq
  exact ⟨⟨u, Nfa.Path.withEnds_iff.mpr hu⟩, ⟨v, Nfa.Path.withEnds_iff.mpr hv⟩⟩

end Expr

end Regex

end RegexAutomata
