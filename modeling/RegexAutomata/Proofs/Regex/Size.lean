/-
The size of the automaton of an expression.

Putting an expression together adds no edge twice: `Expr.assembleNew` does what `Expr.assemble`
does, but fails as soon as an edge is there already, and it comes to the same result. So the edges
are as many as the steps that add one.

* `Nfa.addAllNew_eq_some`, `Nfa.Tidy.tally_build` — when edges can be added as new ones, and what
  this adds to the size;
* `Expr.assembleNew_eq_some` — no edge of an expression is added twice;
* `Expr.tally_compile` — the size of a fragment, along the expression;
* `countP_of_derives` — parts of the expression are counted in its text;
* `tally_toNfa` — the size of the automaton of a text.
-/
import RegexAutomata.Proofs.Nfa.Transitions
import RegexAutomata.Proofs.Regex.Assemble
import RegexAutomata.Proofs.Regex.Shape

namespace RegexAutomata

/-- How many states there are, how many edges that read a symbol, and how many silent edges. -/
@[ext] structure Tally where
  states : Nat
  reading : Nat
  silent : Nat
deriving DecidableEq

namespace Tally

instance : Add Tally :=
  ⟨fun s t => ⟨s.states + t.states, s.reading + t.reading, s.silent + t.silent⟩⟩

@[simp] theorem states_add (s t : Tally) : (s + t).states = s.states + t.states := rfl

@[simp] theorem reading_add (s t : Tally) : (s + t).reading = s.reading + t.reading := rfl

@[simp] theorem silent_add (s t : Tally) : (s + t).silent = s.silent + t.silent := rfl

/-- Some edges. -/
def ofEdges (es : List (Int × Symbol × Int)) : Tally where
  states := 0
  reading := es.countP fun e => e.2.1 ≠ epsilon
  silent := es.countP fun e => e.2.1 = epsilon

theorem ofEdges_cons (e : Int × Symbol × Int) (es : List (Int × Symbol × Int)) :
    ofEdges (e :: es) = ofEdges [e] + ofEdges es := by
  ext <;> simp [ofEdges, List.countP_cons, Nat.add_comm]

end Tally

namespace Nfa

variable {n m : Nfa} {f g : Fragment} {es : List (Int × Symbol × Int)} {r : Fragment × Nfa}

/-- The size of an automaton. -/
def tally (n : Nfa) : Tally := { Tally.ofEdges n.edges with states := n.size }

/-- An automaton has a size: so many states, edges that read a symbol and silent edges. -/
structure Measures (n : Nfa) (t : Tally) : Prop where
  states : n.size = t.states
  reading : {e : Int × Symbol × Int | n.Edge e.1 e.2.1 e.2.2 ∧ e.2.1 ≠ epsilon}.ncard = t.reading
  silent : {e : Int × Symbol × Int | n.Edge e.1 e.2.1 e.2.2 ∧ e.2.1 = epsilon}.ncard = t.silent

theorem Tidy.measures (h : n.Tidy) : n.Measures n.tally where
  states := rfl
  reading := by
    have hcount := h.ncard_edge fun a => a ≠ epsilon
    simp only [decide_eq_true_eq] at hcount
    exact hcount
  silent := by
    have hcount := h.ncard_edge fun a => a = epsilon
    simp only [decide_eq_true_eq] at hcount
    exact hcount

theorem tally_grow (n : Nfa) : n.grow.tally = n.tally + ⟨2, 0, 0⟩ := by
  rw [tally, tally, size_grow, grow, edges_newState, edges_newState]
  rfl

theorem Tidy.tally_link (h : n.Tidy) {p q : Int} {a : Symbol} (hp : n.IsAllocated p)
    (hq : n.IsAllocated q) (he : ¬n.Edge p a q) :
    (n.link p a q).tally = n.tally + Tally.ofEdges [(p, a, q)] := by
  have hperm := h.perm_edges_link hp hq he
  ext
  · simp [tally, Tally.ofEdges]
  · simp [tally, Tally.ofEdges, hperm.countP_eq, List.countP_cons]
  · simp [tally, Tally.ofEdges, hperm.countP_eq, List.countP_cons]

/-! ### New edges -/

/-- Adds edges, each with the checks that any added edge goes through, but fails if one of them is
there already when it is added. -/
def addAllNew : List (Int × Symbol × Int) → Nfa → Option Nfa
  | [], n => some n
  | (p, a, q) :: rest, n =>
    if q ∈ n.targets p a then none
    else
      match addTransition p a q n with
      | .ok _ m => addAllNew rest m
      | .error _ _ => none

/-- Different edges between states can be added if none of them is there. -/
theorem addAllNew_eq_some
    (hes : ∀ e ∈ es,
      n.IsAllocated e.1 ∧ n.IsAllocated e.2.2 ∧ (e.2.1 = epsilon ∨ e.2.1 ∈ n.alphabet))
    (hnew : ∀ e ∈ es, ¬n.Edge e.1 e.2.1 e.2.2) (hnodup : es.Nodup) :
    addAllNew es n = some (es.foldl (fun m e => m.link e.1 e.2.1 e.2.2) n) := by
  induction es generalizing n with
  | nil => rfl
  | cons e rest ih =>
    obtain ⟨p, a, q⟩ := e
    obtain ⟨⟨hp, hq, ha⟩, hrest⟩ := List.forall_mem_cons.mp hes
    obtain ⟨he, hnew⟩ := List.forall_mem_cons.mp hnew
    obtain ⟨hmem, hnodup⟩ := List.nodup_cons.mp hnodup
    have hadd : addTransition p a q n = .ok () (n.link p a q) :=
      addTransition_eq_ok_iff.mpr ⟨hp, hq, ha, rfl⟩
    have habsent : q ∉ n.targets p a := he
    rw [addAllNew, if_neg habsent, hadd]
    refine ih ?_ ?_ hnodup
    · intro k hk
      rw [isAllocated_link, isAllocated_link, alphabet_link]
      exact hrest k hk
    · intro k hk
      rw [edge_link hp]
      rintro (hedge | ⟨h₁, h₂, h₃⟩)
      · exact hnew k hk hedge
      · exact hmem ((Prod.ext h₁ (Prod.ext h₂ h₃) : k = (p, a, q)) ▸ hk)

theorem Tidy.tally_addAllNew (h : n.Tidy) (hm : addAllNew es n = some m) :
    m.Tidy ∧ m.tally = n.tally + Tally.ofEdges es := by
  induction es generalizing n with
  | nil =>
    obtain rfl : n = m := Option.some.inj hm
    exact ⟨h, rfl⟩
  | cons e rest ih =>
    obtain ⟨p, a, q⟩ := e
    rw [addAllNew] at hm
    split at hm
    · cases hm
    rename_i hnew
    cases hadd : addTransition p a q n with
    | error e k =>
      rw [hadd] at hm
      cases hm
    | ok _ k =>
      rw [hadd] at hm
      obtain ⟨hp, hq, -, rfl⟩ := addTransition_eq_ok_iff.mp hadd
      obtain ⟨htidy, htally⟩ := ih (h.link hp hq a) hm
      refine ⟨htidy, ?_⟩
      rw [htally, h.tally_link hp hq hnew, Tally.ofEdges_cons (p, a, q) rest]
      ext <;> simp only [Tally.states_add, Tally.reading_add, Tally.silent_add, Nat.add_assoc]

/-- Adds new edges for a fragment. -/
def build (f : Fragment) (es : List (Int × Symbol × Int)) (n : Nfa) : Option (Fragment × Nfa) :=
  (addAllNew es n).map fun m => (f, m)

theorem build_eq_some
    (hes : ∀ e ∈ es,
      n.IsAllocated e.1 ∧ n.IsAllocated e.2.2 ∧ (e.2.1 = epsilon ∨ e.2.1 ∈ n.alphabet))
    (hnew : ∀ e ∈ es, ¬n.Edge e.1 e.2.1 e.2.2) (hnodup : es.Nodup) :
    build f es n = some (f, es.foldl (fun m e => m.link e.1 e.2.1 e.2.2) n) := by
  rw [build, addAllNew_eq_some hes hnew hnodup]
  rfl

theorem Tidy.tally_build (h : n.Tidy) (hr : build f es n = some r) :
    r.2.Tidy ∧ r.2.tally = n.tally + Tally.ofEdges es := by
  obtain ⟨m, hm, rfl⟩ := Option.map_eq_some_iff.mp hr
  exact h.tally_addAllNew hm

/-! The operations on fragments, with new edges only. -/

def literalNew (a : Symbol) (n : Nfa) : Option (Fragment × Nfa) :=
  build n.newEnds [(n.size, a, n.size + 1)] n.grow

def joinNew (f g : Fragment) (n : Nfa) : Option (Fragment × Nfa) :=
  build ⟨f.entry, g.exit⟩ [(f.exit, epsilon, g.entry)] n

def chooseNew (f g : Fragment) (n : Nfa) : Option (Fragment × Nfa) :=
  build n.newEnds [(n.size, epsilon, f.entry), (n.size, epsilon, g.entry),
    (f.exit, epsilon, n.size + 1), (g.exit, epsilon, n.size + 1)] n.grow

def wrapNew (f : Fragment) (n : Nfa) : Option (Fragment × Nfa) :=
  build n.newEnds [(n.size, epsilon, f.entry), (f.exit, epsilon, n.size + 1)] n.grow

def loopNew (f : Fragment) (n : Nfa) : Option (Fragment × Nfa) :=
  build f [(f.exit, epsilon, f.entry), (f.entry, epsilon, f.exit)] n

def starNew (f : Fragment) (n : Nfa) : Option (Fragment × Nfa) :=
  if n.hasIncoming f.entry || n.hasOutgoing f.exit then do
    let (f, n) ← wrapNew f n
    loopNew f n
  else loopNew f n

theorem literalNew_eq_some {a : Symbol} (ha : a = epsilon ∨ a ∈ n.alphabet) :
    literalNew a n = some (literal a n) := by
  have hnew := n.isAllocated_newEnds_grow
  rw [literalNew, literal_eq]
  refine build_eq_some ?_ ?_ (List.nodup_singleton _)
  · exact List.forall_mem_singleton.mpr ⟨hnew.1, hnew.2, ha⟩
  · rw [List.forall_mem_singleton, edge_grow]
    exact not_edge_from (Int.le_refl _)

theorem joinNew_eq_some (hf : n.Holds f) (hg : n.Holds g)
    (hnew : ¬n.Edge f.exit epsilon g.entry) : joinNew f g n = some (join f g n) := by
  refine build_eq_some ?_ ?_ (List.nodup_singleton _)
  · exact List.forall_mem_singleton.mpr ⟨hf.exit, hg.entry, .inl rfl⟩
  · exact List.forall_mem_singleton.mpr hnew

/-- The new ends have no edges before, and the fragments have different ends. -/
theorem chooseNew_eq_some (h : n.WellFormed) (hf : n.Holds f) (hg : n.Holds g)
    (hentry : f.entry ≠ g.entry) (hexit : f.exit ≠ g.exit) :
    chooseNew f g n = some (choose f g n) := by
  have hnew := n.isAllocated_newEnds_grow
  have hf' := hf.mono (m := n.grow) (by simp)
  have hg' := hg.mono (m := n.grow) (by simp)
  have hfexit := hf.exit.2
  have hgexit := hg.exit.2
  rw [chooseNew, choose_eq]
  refine build_eq_some ?_ ?_ ?_
  · simp only [List.forall_mem_cons, true_or, and_true]
    exact ⟨⟨hnew.1, hf'.entry⟩, ⟨hnew.1, hg'.entry⟩, ⟨hf'.exit, hnew.2⟩, ⟨hg'.exit, hnew.2⟩,
      List.forall_mem_nil _⟩
  · simp only [List.forall_mem_cons, edge_grow]
    exact ⟨not_edge_from (Int.le_refl _), not_edge_from (Int.le_refl _), h.not_edge_to (by omega),
      h.not_edge_to (by omega), List.forall_mem_nil _⟩
  · simp only [List.nodup_cons, List.mem_cons, Prod.mk.injEq, List.not_mem_nil, or_false, true_and,
      List.nodup_nil, and_true, not_or, not_false_eq_true]
    omega

theorem wrapNew_eq_some (h : n.WellFormed) (hf : n.Holds f) :
    wrapNew f n = some (wrap f n) := by
  have hnew := n.isAllocated_newEnds_grow
  have hf' := hf.mono (m := n.grow) (by simp)
  have hexit := hf.exit.2
  rw [wrapNew, wrap_eq]
  refine build_eq_some ?_ ?_ ?_
  · simp only [List.forall_mem_cons, true_or, and_true]
    exact ⟨⟨hnew.1, hf'.entry⟩, ⟨hf'.exit, hnew.2⟩, List.forall_mem_nil _⟩
  · simp only [List.forall_mem_cons, edge_grow]
    exact ⟨not_edge_from (Int.le_refl _), h.not_edge_to (by omega), List.forall_mem_nil _⟩
  · simp only [List.nodup_cons, List.mem_cons, Prod.mk.injEq, List.not_mem_nil, or_false, true_and,
      not_false_eq_true, List.nodup_nil, and_true]
    omega

theorem loopNew_eq_some (hf : n.Holds f) (hends : f.entry ≠ f.exit)
    (hback : ¬n.Edge f.exit epsilon f.entry) (hskip : ¬n.Edge f.entry epsilon f.exit) :
    loopNew f n = some (loop f n) := by
  refine build_eq_some ?_ ?_ ?_
  · simp only [List.forall_mem_cons, true_or, and_true]
    exact ⟨⟨hf.exit, hf.entry⟩, ⟨hf.entry, hf.exit⟩, List.forall_mem_nil _⟩
  · simp only [List.forall_mem_cons]
    exact ⟨hback, hskip, List.forall_mem_nil _⟩
  · simp only [List.nodup_cons, List.mem_singleton, Prod.mk.injEq, true_and, List.not_mem_nil,
      not_false_eq_true, List.nodup_nil, and_true]
    exact fun heq => hends heq.1.symm

/-- The new ends around a fragment are linked to the fragment only. -/
theorem loopNew_wrap_eq_some (hf : n.Holds f) :
    loopNew (wrap f n).1 (wrap f n).2 = some (loop (wrap f n).1 (wrap f n).2) := by
  have hentry := hf.entry.2
  refine loopNew_eq_some (holds_wrap f n) ?_ ?_ ?_
  · rw [wrap_fst, newEnds]
    dsimp only
    omega
  · rw [wrap_fst]
    exact not_edge_wrap_exit hf
  · rw [wrap_fst]
    intro he
    have hexit : (n.size : Int) + 1 = f.entry := (edge_wrap_entry hf he).2
    omega

/-- A fragment whose ends differ, and which cannot be skipped unless it is entered or left from
within, can be repeated with new edges. -/
theorem starNew_eq_some (h : n.WellFormed) (hf : n.Holds f) (hends : f.entry ≠ f.exit)
    (hskip : n.hasIncoming f.entry = false → ¬n.Edge f.entry epsilon f.exit) :
    starNew f n = some (star f n) := by
  rw [starNew, star_eq]
  by_cases hinner : (n.hasIncoming f.entry || n.hasOutgoing f.exit) = true
  · rw [if_pos hinner, if_pos hinner, wrapNew_eq_some h hf]
    exact loopNew_wrap_eq_some hf
  · rw [if_neg hinner, if_neg hinner]
    rw [Bool.or_eq_true, not_or, Bool.not_eq_true, Bool.not_eq_true] at hinner
    refine loopNew_eq_some hf hends ?_ (hskip hinner.1)
    intro he
    have := (h.hasOutgoing_iff f.exit).mpr ⟨_, _, he⟩
    rw [hinner.2] at this
    cases this

/-! What the operations add to the size. -/

namespace Tidy

theorem tally_literalNew {c : CodePoint} (h : n.Tidy) (hr : literalNew [c] n = some r) :
    r.2.tally = n.tally + ⟨2, 1, 0⟩ := by
  have hgrow : n.grow.Tidy := h.newState.newState
  rw [(hgrow.tally_build hr).2, tally_grow]
  ext <;> simp [Tally.ofEdges, epsilon]

theorem tally_joinNew (h : n.Tidy) (hr : joinNew f g n = some r) :
    r.2.tally = n.tally + ⟨0, 0, 1⟩ := by
  rw [(h.tally_build hr).2]
  ext <;> simp [Tally.ofEdges]

theorem tally_chooseNew (h : n.Tidy) (hr : chooseNew f g n = some r) :
    r.2.tally = n.tally + ⟨2, 0, 4⟩ := by
  have hgrow : n.grow.Tidy := h.newState.newState
  rw [(hgrow.tally_build hr).2, tally_grow]
  ext <;> simp [Tally.ofEdges]

theorem tally_wrapNew (h : n.Tidy) (hr : wrapNew f n = some r) :
    r.2.Tidy ∧ r.2.tally = n.tally + ⟨2, 0, 2⟩ := by
  have hgrow : n.grow.Tidy := h.newState.newState
  obtain ⟨htidy, htally⟩ := hgrow.tally_build hr
  refine ⟨htidy, ?_⟩
  rw [htally, tally_grow]
  ext <;> simp [Tally.ofEdges]

theorem tally_loopNew (h : n.Tidy) (hr : loopNew f n = some r) :
    r.2.tally = n.tally + ⟨0, 0, 2⟩ := by
  rw [(h.tally_build hr).2]
  ext <;> simp [Tally.ofEdges]

theorem tally_starNew (h : n.Tidy) (hr : starNew f n = some r) :
    r.2.tally = n.tally +
      if n.hasIncoming f.entry || n.hasOutgoing f.exit then ⟨2, 0, 4⟩ else ⟨0, 0, 2⟩ := by
  rw [starNew] at hr
  by_cases hinner : (n.hasIncoming f.entry || n.hasOutgoing f.exit) = true
  · rw [if_pos hinner] at hr ⊢
    obtain ⟨⟨g, m⟩, hwrap, hloop⟩ := Option.bind_eq_some_iff.mp hr
    obtain ⟨htidy, htally⟩ := h.tally_wrapNew hwrap
    rw [htidy.tally_loopNew hloop, htally]
    ext <;> simp
  · rw [if_neg hinner] at hr ⊢
    exact h.tally_loopNew hr

end Tidy

end Nfa

namespace Regex

open Nfa (Fragment)

namespace Expr

variable {n m : Nfa} {e f : Expr}

/-! ### No edge is added twice -/

/-- Puts an expression together in an automaton, and fails if an edge is there already. -/
def assembleNew : Expr → Nfa → Option (Fragment × Nfa)
  | literal c, n => n.literalNew [c]
  | concat e f, n => do
    let (a, n) ← assembleNew e n
    let (b, n) ← assembleNew f n
    n.joinNew a b
  | union e f, n => do
    let (a, n) ← assembleNew e n
    let (b, n) ← assembleNew f n
    n.chooseNew a b
  | star e, n => do
    let (a, n) ← assembleNew e n
    n.starNew a

/-- No edge leads from older states to a fragment that was built behind them. -/
theorem not_edge_entry_compile (h : n.WellFormed) {p : Int} (hp : n.IsAllocated p) (a : Symbol) :
    ¬(e.compile n).2.Edge p a (e.compile n).1.entry := by
  have hentry := e.holds_block.entry.1
  rw [compile_eq_beside]
  show ¬(n.append e.block.2).Edge p a (e.block.1.entry + n.size)
  rw [Nfa.edge_append_left hp.2]
  exact h.not_edge_to (by omega)

/-! The states that hold two parts or a repeated part together have no edges to them yet. -/

theorem joinNew_compile (e f : Expr) (h : n.WellFormed) :
    Nfa.joinNew (e.compile n).1 (f.compile (e.compile n).2).1 (f.compile (e.compile n).2).2 =
      some ((concat e f).compile n) := by
  have ha := e.holds_compile n
  have hb := f.holds_compile (e.compile n).2
  exact Nfa.joinNew_eq_some (ha.mono (f.size_le_compile _)) hb
    (not_edge_entry_compile (e.wellFormed_compile h) ha.exit epsilon)

theorem chooseNew_compile (e f : Expr) (h : n.WellFormed) :
    Nfa.chooseNew (e.compile n).1 (f.compile (e.compile n).2).1 (f.compile (e.compile n).2).2 =
      some ((union e f).compile n) := by
  have ha := e.holds_compile n
  have hb := f.growsTo_compile (e.compile n).2.size.le_refl
  -- the second fragment lies behind the first one
  have hentry := ha.entry.2
  have hentry' := hb.2.le_entry
  have hexit := ha.exit.2
  have hexit' := hb.2.le_exit
  exact Nfa.chooseNew_eq_some (f.wellFormed_compile (e.wellFormed_compile h))
    (ha.mono hb.1.size_le) hb.2.holds (by omega) (by omega)

theorem starNew_compile (e : Expr) (h : n.WellFormed) :
    Nfa.starNew (e.compile n).1 (e.compile n).2 = some ((star e).compile n) := by
  refine Nfa.starNew_eq_some (e.wellFormed_compile h) (e.holds_compile n)
    (e.entry_ne_exit_compile n) ?_
  rw [hasIncoming_entry_compile]
  exact fun hbegins => not_skip_compile hbegins n

/-- No edge of an expression is there already when it is added. -/
theorem assembleNew_eq_some (e : Expr) (h : n.WellFormed) (hover : e.Over n.alphabet) :
    e.assembleNew n = some (e.compile n) := by
  induction e generalizing n with
  | literal c => exact Nfa.literalNew_eq_some (.inr hover)
  | concat e f ihe ihf =>
    rw [assembleNew, ihe h hover.1]
    show (f.assembleNew (e.compile n).2 >>= _) = _
    rw [ihf (e.wellFormed_compile h) (by rw [alphabet_compile]; exact hover.2)]
    exact joinNew_compile e f h
  | union e f ihe ihf =>
    rw [assembleNew, ihe h hover.1]
    show (f.assembleNew (e.compile n).2 >>= _) = _
    rw [ihf (e.wellFormed_compile h) (by rw [alphabet_compile]; exact hover.2)]
    exact chooseNew_compile e f h
  | star e ih =>
    rw [assembleNew, ih h hover]
    exact starNew_compile e h

/-! ### Counting -/

/-- How many parts of an expression have a property. -/
def count (P : Expr → Bool) : Expr → Nat
  | literal c => (P (literal c)).toNat
  | concat e f => e.count P + f.count P + (P (concat e f)).toNat
  | union e f => e.count P + f.count P + (P (union e f)).toNat
  | star e => e.count P + (P (star e)).toNat

def isLiteral : Expr → Bool
  | literal _ => true
  | _ => false

/-- A join of two factors. A concatenation of some factors nests one join less than it has
factors. -/
def isConcat : Expr → Bool
  | concat _ _ => true
  | _ => false

def isUnion : Expr → Bool
  | union _ _ => true
  | _ => false

def isStar : Expr → Bool
  | star _ => true
  | _ => false

/-- A star whose operand begins or ends with a starred part. -/
def isWrapped : Expr → Bool
  | star e => e.begins || e.ends
  | _ => false

theorem count_isWrapped_le (e : Expr) : e.count isWrapped ≤ e.count isStar := by
  induction e with
  | literal c => exact Nat.le_refl _
  | concat e f ihe ihf => exact Nat.add_le_add_right (Nat.add_le_add ihe ihf) _
  | union e f ihe ihf => exact Nat.add_le_add_right (Nat.add_le_add ihe ihf) _
  | star e ih => exact Nat.add_le_add ih (Bool.toNat_le _)

/-- The size of the fragment of an expression, by the number of its parts of each kind. -/
def tally (e : Expr) : Tally where
  states := 2 * (e.count isLiteral + e.count isUnion + e.count isWrapped)
  reading := e.count isLiteral
  silent := e.count isConcat + 4 * e.count isUnion + 2 * e.count isStar + 2 * e.count isWrapped

theorem tidy_compile (e : Expr) (h : n.Tidy) : (e.compile n).2.Tidy :=
  h.grows (e.growsTo_compile n.size.le_refl).1

/-- The size of a fragment is added to that of the automaton which it is built in. -/
theorem tally_compile (e : Expr) (h : n.WellFormed) (htidy : n.Tidy) (hover : e.Over n.alphabet) :
    (e.compile n).2.tally = n.tally + e.tally := by
  induction e generalizing n with
  | literal c => exact htidy.tally_literalNew (Nfa.literalNew_eq_some (.inr hover))
  | concat e f ihe ihf =>
    have hm := e.tidy_compile htidy
    rw [(f.tidy_compile hm).tally_joinNew (joinNew_compile e f h),
      ihf (e.wellFormed_compile h) hm (by rw [alphabet_compile]; exact hover.2),
      ihe h htidy hover.1]
    ext <;> simp [tally, count, isLiteral, isConcat, isUnion, isStar, isWrapped] <;> omega
  | union e f ihe ihf =>
    have hm := e.tidy_compile htidy
    rw [(f.tidy_compile hm).tally_chooseNew (chooseNew_compile e f h),
      ihf (e.wellFormed_compile h) hm (by rw [alphabet_compile]; exact hover.2),
      ihe h htidy hover.1]
    ext <;> simp [tally, count, isLiteral, isConcat, isUnion, isStar, isWrapped] <;> omega
  | star e ih =>
    rw [(e.tidy_compile htidy).tally_starNew (starNew_compile e h), hasIncoming_entry_compile,
      hasOutgoing_exit_compile, ih h htidy hover]
    by_cases hwrapped : (e.begins || e.ends) = true
    · rw [if_pos hwrapped]
      ext <;> simp [tally, count, isLiteral, isConcat, isUnion, isStar, isWrapped, hwrapped]
      all_goals omega
    · rw [if_neg hwrapped]
      ext <;> simp [tally, count, isLiteral, isConcat, isUnion, isStar, isWrapped, hwrapped]
      omega

end Expr

variable {alphabet : Alphabet} {x : Category} {k : Nat} {t : Text} {e : Expr}

/-! ### Counting in the text -/

/-- Parts of an expression are counted in its text, where a literal has its code point, and a union
and a star have their signs. -/
theorem countP_of_derives {P : CodePoint → Bool} {Q : Expr → Bool}
    (hgroup : P openGroup = false ∧ P closeGroup = false)
    (hliteral : ∀ c, isOperator c = false → P c = Q (.literal c))
    (hconcat : ∀ e f, Q (.concat e f) = false) (hunion : ∀ e f, Q (.union e f) = P unionSign)
    (hstar : ∀ e, Q (.star e) = P starSign) (h : Derives alphabet x k t e) :
    t.countP P = e.count Q := by
  have hsign (c : CodePoint) : List.countP P [c] = (P c).toNat := by
    cases hc : P c <;> simp [hc]
  induction h with
  | literal hc _ => rw [hsign, hliteral _ hc, Expr.count]
  | group _ ih =>
    rw [List.countP_append, List.countP_append, ih, hsign, hsign, hgroup.1, hgroup.2]
    exact Nat.zero_add _
  | symbol _ ih => exact ih
  | star _ ih => rw [List.countP_append, ih, hsign, Expr.count, hstar]
  | kleene _ ih => exact ih
  | concat _ _ ihe ihf =>
    rw [List.countP_append, ihe, ihf, Expr.count, hconcat]
    exact (Nat.add_zero _).symm
  | alternative _ ih => exact ih
  | union _ _ ihe ihf =>
    rw [List.countP_append, List.countP_append, ihe, ihf, hsign, Expr.count, hunion]
    exact Nat.add_right_comm _ _ _

/-- No code point is counted twice. -/
theorem countP_add_count_add_count_le (t : Text) :
    t.countP (fun c => !isOperator c) + t.count unionSign + t.count starSign ≤ t.length := by
  induction t with
  | nil => exact Nat.le_refl _
  | cons c t ih =>
    have hsign : (if !isOperator c then 1 else 0) + (if c == unionSign then 1 else 0) +
        (if c == starSign then 1 else 0) ≤ 1 := by
      by_cases hunion : c = unionSign
      · subst hunion
        decide
      · by_cases hstar : c = starSign
        · subst hstar
          decide
        · simp [hunion, hstar]
          split <;> omega
    rw [List.countP_cons, List.count_cons, List.count_cons, List.length_cons]
    omega

/-- The size of the automaton of an expression, by what is counted in its text: the literals, the
signs of unions and the stars. Two kinds of parts do not show in the text, the joins and the stars
that need states of their own. -/
def tally (regex : Text) (e : Expr) : Tally :=
  let literals := regex.countP fun c => !isOperator c
  let unions := regex.count unionSign
  let stars := regex.count starSign
  let joins := e.count Expr.isConcat
  let wrapped := e.count Expr.isWrapped
  { states := 2 * (literals + unions + wrapped)
    reading := literals
    silent := joins + 4 * unions + 2 * stars + 2 * wrapped }

theorem count_literal_of_derives (h : Derives alphabet x k t e) :
    t.countP (fun c => !isOperator c) = e.count Expr.isLiteral :=
  countP_of_derives (by decide) (fun c hc => by simp [hc, Expr.isLiteral]) (fun _ _ => rfl)
    (fun _ _ => rfl) (fun _ => rfl) h

theorem count_unionSign_of_derives (h : Derives alphabet x k t e) :
    t.count unionSign = e.count Expr.isUnion := by
  refine countP_of_derives (by decide) (fun c hc => ?_) (fun _ _ => rfl) (fun _ _ => rfl)
    (fun _ => rfl) h
  have hne : c ≠ unionSign := by
    rintro rfl
    cases hc
  simp [hne, Expr.isUnion]

theorem count_starSign_of_derives (h : Derives alphabet x k t e) :
    t.count starSign = e.count Expr.isStar := by
  refine countP_of_derives (by decide) (fun c hc => ?_) (fun _ _ => rfl) (fun _ _ => rfl)
    (fun _ => rfl) h
  have hne : c ≠ starSign := by
    rintro rfl
    cases hc
  simp [hne, Expr.isStar]

theorem tally_eq_of_derives (h : Derives alphabet x k t e) : tally t e = e.tally := by
  rw [tally, count_literal_of_derives h, count_unionSign_of_derives h, count_starSign_of_derives h]
  rfl

/-- Every literal, every sign of a union and every star has at most two states. -/
theorem states_tally_le (h : Derives alphabet x k t e) : (tally t e).states ≤ 2 * t.length := by
  have hlength := countP_add_count_add_count_le t
  have hwrapped := e.count_isWrapped_le
  rw [← count_starSign_of_derives h] at hwrapped
  rw [tally]
  dsimp only
  omega

/-! ### The automaton -/

theorem Expr.tidy_toNfa (e : Expr) (alphabet : Alphabet) : (e.toNfa alphabet).Tidy :=
  e.tidy_compile (Nfa.Tidy.empty alphabet)

theorem tally_toNfa (h : Derives alphabet .union maxDepth t e) :
    (e.toNfa alphabet).tally = tally t e := by
  have hcompile := e.tally_compile (Nfa.WellFormed.empty alphabet) (Nfa.Tidy.empty alphabet)
    (Expr.over_of_derives h)
  have hempty : (Nfa.empty alphabet).tally = ⟨0, 0, 0⟩ := rfl
  rw [tally_eq_of_derives h]
  refine Eq.trans hcompile ?_
  rw [hempty]
  ext <;> simp

/-- No edge of an automaton is added twice while it is put together. -/
theorem toNfa_eq_assembleNew (h : Derives alphabet .union maxDepth t e) :
    ∃ f m, e.assembleNew (.empty alphabet) = some (f, m) ∧
      e.toNfa alphabet = { m with start := f.entry, finish := f.exit } :=
  ⟨_, _, e.assembleNew_eq_some (Nfa.WellFormed.empty alphabet) (Expr.over_of_derives h), rfl⟩

end Regex

end RegexAutomata
