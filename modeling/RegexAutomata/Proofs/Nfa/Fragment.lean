/-
The languages of fragments.

The language of a fragment are the texts of the paths from its entry to its exit. The operations on
fragments give the expected languages, provided that a fragment is confined: no edge leaves its
region before the operation, so that a path can leave it only by the new edges.

* `edge_literal`, `edge_join`, `edge_choose`, `edge_wrap`, `edge_loop` — the edges that an operation
  adds;
* `between_literal`, `between_join`, `between_choose`, `between_star` — the language that it gives.

A star may loop on the ends of its fragment, as long as no edge of the fragment enters its entry or
leaves its exit: a path that takes one of the new edges is then between two repetitions. Otherwise
the star is built around a wrapped fragment, whose ends are new (`between_wrap`).
-/
import RegexAutomata.Nfa.Fragment
import RegexAutomata.Proofs.Nfa.Path
import Mathlib.Computability.Language

namespace RegexAutomata.Nfa

open Computability

variable {n m : Nfa} {f g : Fragment}

/-- Both ends of a fragment are states. -/
structure Holds (n : Nfa) (f : Fragment) : Prop where
  entry : n.IsAllocated f.entry
  exit : n.IsAllocated f.exit

/-- The edges that let a fragment be repeated and skipped. -/
def loop (f : Fragment) (n : Nfa) : Fragment × Nfa :=
  (f, (n.link f.exit epsilon f.entry).link f.entry epsilon f.exit)

/-- A star is a loop, around a wrapped fragment if the fragment is entered or left from within. -/
theorem star_eq (f : Fragment) (n : Nfa) :
    star f n = if n.hasIncoming f.entry || n.hasOutgoing f.exit then
        loop (wrap f n).1 (wrap f n).2
      else loop f n := by
  rw [star]
  by_cases h : (n.hasIncoming f.entry || n.hasOutgoing f.exit) = true
  · rw [if_pos h, if_pos h]
    rfl
  · rw [if_neg h, if_neg h]
    rfl

@[simp] theorem newState_fst (n : Nfa) : n.newState.1 = n.size := rfl

/-! ### States and edges -/

/-- The automaton with two new states, for the ends of a fragment. -/
def grow (n : Nfa) : Nfa := n.newState.2.newState.2

@[simp] theorem size_grow (n : Nfa) : n.grow.size = n.size + 2 := by
  simp [grow]

@[simp] theorem edge_grow {p q : Int} {a : Symbol} : n.grow.Edge p a q ↔ n.Edge p a q := by
  rw [grow, edge_newState, edge_newState]

@[simp] theorem isAllocated_grow {q : Int} :
    n.grow.IsAllocated q ↔ 0 ≤ q ∧ q < n.size + 2 := by
  rw [IsAllocated, size_grow, Int.natCast_add]
  rfl

/-- The ends of a fragment with two new states. -/
def newEnds (n : Nfa) : Fragment := ⟨n.size, n.size + 1⟩

theorem literal_eq (a : Symbol) (n : Nfa) :
    literal a n = (n.newEnds, n.grow.link n.size a (n.size + 1)) := by
  simp [literal, grow, newEnds]

theorem choose_eq (f g : Fragment) (n : Nfa) :
    choose f g n = (n.newEnds,
      (((n.grow.link n.size epsilon f.entry).link n.size epsilon g.entry).link f.exit epsilon
        (n.size + 1)).link g.exit epsilon (n.size + 1)) := by
  simp [choose, grow, newEnds]

theorem wrap_eq (f : Fragment) (n : Nfa) :
    wrap f n = (n.newEnds,
      (n.grow.link n.size epsilon f.entry).link f.exit epsilon (n.size + 1)) := by
  simp [wrap, grow, newEnds]

@[simp] theorem literal_fst (a : Symbol) (n : Nfa) : (literal a n).1 = n.newEnds := by
  rw [literal_eq]

@[simp] theorem choose_fst (f g : Fragment) (n : Nfa) : (choose f g n).1 = n.newEnds := by
  rw [choose_eq]

@[simp] theorem wrap_fst (f : Fragment) (n : Nfa) : (wrap f n).1 = n.newEnds := by
  rw [wrap_eq]

@[simp] theorem size_literal (a : Symbol) (n : Nfa) : (literal a n).2.size = n.size + 2 := by
  simp [literal_eq]

@[simp] theorem size_join (f g : Fragment) (n : Nfa) : (join f g n).2.size = n.size := by
  simp [join]

@[simp] theorem size_choose (f g : Fragment) (n : Nfa) : (choose f g n).2.size = n.size + 2 := by
  simp [choose_eq]

@[simp] theorem size_wrap (f : Fragment) (n : Nfa) : (wrap f n).2.size = n.size + 2 := by
  simp [wrap_eq]

@[simp] theorem size_loop (f : Fragment) (n : Nfa) : (loop f n).2.size = n.size := by
  simp [loop]

theorem isAllocated_mono {q : Int} (h : n.size ≤ m.size) (hq : n.IsAllocated q) :
    m.IsAllocated q := by
  rw [IsAllocated] at hq ⊢
  omega

theorem Holds.mono (h : n.size ≤ m.size) (hf : n.Holds f) : m.Holds f :=
  ⟨isAllocated_mono h hf.entry, isAllocated_mono h hf.exit⟩

theorem holds_newEnds (h : n.size + 2 ≤ m.size) : m.Holds n.newEnds := by
  constructor <;> simp only [IsAllocated, newEnds] <;> omega

theorem Holds.join (hf : n.Holds f) (hg : n.Holds g) : (join f g n).2.Holds (join f g n).1 :=
  ⟨isAllocated_mono (by simp) hf.entry, isAllocated_mono (by simp) hg.exit⟩

theorem holds_wrap (f : Fragment) (n : Nfa) : (wrap f n).2.Holds (wrap f n).1 := by
  rw [wrap_eq]
  exact holds_newEnds (by simp)

theorem Holds.loop (hf : n.Holds f) : (loop f n).2.Holds (loop f n).1 := hf.mono (by simp)

theorem isAllocated_newEnds_grow (n : Nfa) :
    n.grow.IsAllocated n.size ∧ n.grow.IsAllocated (n.size + 1) := by
  rw [isAllocated_grow, isAllocated_grow]
  omega

theorem edge_literal {a b : Symbol} {p q : Int} :
    (literal a n).2.Edge p b q ↔ n.Edge p b q ∨ (p = n.size ∧ b = a ∧ q = n.size + 1) := by
  rw [literal_eq, edge_link n.isAllocated_newEnds_grow.1, edge_grow]

theorem edge_join (hf : n.Holds f) {b : Symbol} {p q : Int} :
    (join f g n).2.Edge p b q ↔ n.Edge p b q ∨ (p = f.exit ∧ b = epsilon ∧ q = g.entry) :=
  edge_link hf.exit

theorem edge_choose (hf : n.Holds f) (hg : n.Holds g) {b : Symbol} {p q : Int} :
    (choose f g n).2.Edge p b q ↔ n.Edge p b q ∨
      (p = n.size ∧ b = epsilon ∧ (q = f.entry ∨ q = g.entry)) ∨
      ((p = f.exit ∨ p = g.exit) ∧ b = epsilon ∧ q = n.size + 1) := by
  have hf := hf.mono (m := n.grow) (by simp)
  have hg := hg.mono (m := n.grow) (by simp)
  have hnew := n.isAllocated_newEnds_grow.1
  rw [choose_eq, edge_link (by simpa using hg.exit), edge_link (by simpa using hf.exit),
    edge_link (isAllocated_link.mpr hnew), edge_link hnew, edge_grow]
  tauto

theorem edge_wrap (hf : n.Holds f) {b : Symbol} {p q : Int} :
    (wrap f n).2.Edge p b q ↔ n.Edge p b q ∨
      (p = n.size ∧ b = epsilon ∧ q = f.entry) ∨
      (p = f.exit ∧ b = epsilon ∧ q = n.size + 1) := by
  have hf := hf.mono (m := n.grow) (by simp)
  rw [wrap_eq, edge_link (by simpa using hf.exit), edge_link n.isAllocated_newEnds_grow.1,
    edge_grow, or_assoc]

theorem edge_loop (hf : n.Holds f) {b : Symbol} {p q : Int} :
    (loop f n).2.Edge p b q ↔ n.Edge p b q ∨
      (p = f.exit ∧ b = epsilon ∧ q = f.entry) ∨ (p = f.entry ∧ b = epsilon ∧ q = f.exit) := by
  rw [loop, edge_link (isAllocated_link.mpr hf.entry), edge_link hf.exit, or_assoc]

/-! ### Languages -/

/-- The texts that lead through a fragment. -/
def between (n : Nfa) (f : Fragment) : Language CodePoint := {w | n.Path f.entry w f.exit}

theorem mem_between {w : Text} : w ∈ n.between f ↔ n.Path f.entry w f.exit := Iff.rfl

theorem mem_between_newEnds {w : Text} :
    w ∈ m.between n.newEnds ↔ m.Path n.size w (n.size + 1) := Iff.rfl

/-- A fragment lies in a region of states that no edge leaves. -/
structure Confined (n : Nfa) (S : Int → Prop) (f : Fragment) : Prop where
  isAllocated : ∀ {q}, S q → n.IsAllocated q
  stays : ∀ {p a q}, S p → n.Edge p a q → S q
  entry : S f.entry
  exit : S f.exit

namespace Confined

variable {S T : Int → Prop}

theorem holds (h : n.Confined S f) : n.Holds f := ⟨h.isAllocated h.entry, h.isAllocated h.exit⟩

/-- Any fragment of a well formed automaton lies in the region of all states. -/
theorem all (h : n.WellFormed) (hf : n.Holds f) : n.Confined n.IsAllocated f where
  isAllocated := id
  stays _ he := h.isAllocated he
  entry := hf.entry
  exit := hf.exit

theorem lt_size (h : n.Confined S f) {q : Int} (hq : S q) : q < n.size := (h.isAllocated hq).2

end Confined

theorem between_literal (c : CodePoint) (n : Nfa) :
    (literal [c] n).2.between (literal [c] n).1 = {[c]} := by
  have hlast (a : Symbol) (q : Int) : ¬(literal [c] n).2.Edge (n.size + 1) a q := by
    rw [edge_literal]
    rintro (he | ⟨h, -⟩)
    · exact absurd he.isAllocated.2 (by omega)
    · omega
  have hfirst {a q} (he : (literal [c] n).2.Edge n.size a q) : a = [c] ∧ q = n.size + 1 := by
    rcases edge_literal.mp he with he | ⟨-, ha, hq⟩
    · exact absurd he.isAllocated.2 (by omega)
    · exact ⟨ha, hq⟩
  ext w
  rw [literal_fst, mem_between_newEnds]
  show _ ↔ w = [c]
  constructor
  · intro h
    rcases h.exists_edge (by omega) with ⟨q, he, -⟩ | ⟨b, v, q, rfl, he, h⟩
    · exact absurd (hfirst he).1 (by simp [epsilon])
    -- the only edge reads the code point, and nothing leads on from its end
    · obtain ⟨hb, rfl⟩ := hfirst he
      obtain ⟨-, rfl⟩ := Path.eq_of_not_left hlast h
      exact hb
  · rintro rfl
    exact .read (edge_literal.mpr (.inr ⟨rfl, rfl, rfl⟩)) (.nil _)

theorem between_join {S T : Int → Prop} (hf : n.Confined S f) (hg : n.Confined T g)
    (hapart : ∀ q, S q → ¬T q) :
    (join f g n).2.between (join f g n).1 = n.between f * n.between g := by
  have hmono {p a q} (he : n.Edge p a q) : (join f g n).2.Edge p a q :=
    (edge_join hf.holds).mpr (.inl he)
  ext w
  rw [mem_between, Language.mem_mul]
  constructor
  · intro h
    have hS {p a q} (hp : S p) (he : (join f g n).2.Edge p a q) :
        (S q ∧ n.Edge p a q) ∨ (p = f.exit ∧ a = epsilon ∧ q = g.entry) :=
      ((edge_join hf.holds).mp he).imp_left fun he => ⟨hf.stays hp he, he⟩
    have hT {p a q} (hp : T p) (he : (join f g n).2.Edge p a q) : T q ∧ n.Edge p a q := by
      rcases (edge_join hf.holds).mp he with he | ⟨rfl, -, -⟩
      · exact ⟨hg.stays hp he, he⟩
      · exact absurd hp (hapart _ hf.exit)
    obtain ⟨u, v, rfl, hu, hv⟩ := Path.leave hS hf.entry (fun h => hapart _ h hg.exit) h
    exact ⟨u, hu, v, Path.map (f := id) hT hg.entry hv, rfl⟩
  · rintro ⟨u, hu, v, hv, rfl⟩
    have hjoin : (join f g n).2.Edge f.exit epsilon g.entry :=
      (edge_join hf.holds).mpr (.inr ⟨rfl, rfl, rfl⟩)
    exact (hu.mono hmono).append (.silent hjoin (hv.mono hmono))

/-- A path from the entry of a confined fragment to a new last state goes through the fragment. -/
theorem Confined.through {S : Int → Prop} (hf : n.Confined S f) {p : Int} {w : Text}
    (hS : ∀ {p a q}, S p → m.Edge p a q →
      n.Edge p a q ∨ (p = f.exit ∧ a = epsilon ∧ q = n.size + 1))
    (hlast : ∀ a q, ¬m.Edge (n.size + 1) a q) (hp : S p) (h : m.Path p w (n.size + 1)) :
    n.Path p w f.exit := by
  have hleave {p a q} (hp : S p) (he : m.Edge p a q) :
      (S q ∧ n.Edge p a q) ∨ (p = f.exit ∧ a = epsilon ∧ q = n.size + 1) :=
    (hS hp he).imp_left fun he => ⟨hf.stays hp he, he⟩
  have hnew : ¬S (n.size + 1) := fun hS => absurd (hf.lt_size hS) (by omega)
  obtain ⟨u, v, rfl, hu, hv⟩ := Path.leave hleave hp hnew h
  obtain ⟨-, rfl⟩ := Path.eq_of_not_left hlast hv
  rwa [List.append_nil]

/-! The ends of a choice and of a wrapped fragment have the new edges only. -/

theorem edge_choose_entry (hf : n.Holds f) (hg : n.Holds g) {a : Symbol} {q : Int}
    (he : (choose f g n).2.Edge n.size a q) : a = epsilon ∧ (q = f.entry ∨ q = g.entry) := by
  rcases (edge_choose hf hg).mp he with he | ⟨-, h⟩ | ⟨h | h, -⟩
  · exact absurd he.isAllocated.2 (by omega)
  · exact h
  · exact absurd hf.exit.2 (by omega)
  · exact absurd hg.exit.2 (by omega)

theorem not_edge_choose_exit (hf : n.Holds f) (hg : n.Holds g) {a : Symbol} {q : Int} :
    ¬(choose f g n).2.Edge (n.size + 1) a q := by
  rw [edge_choose hf hg]
  rintro (he | ⟨he, -⟩ | ⟨he | he, -⟩)
  · exact absurd he.isAllocated.2 (by omega)
  · omega
  · exact absurd hf.exit.2 (by omega)
  · exact absurd hg.exit.2 (by omega)

theorem edge_wrap_entry (hf : n.Holds f) {a : Symbol} {q : Int}
    (he : (wrap f n).2.Edge n.size a q) : a = epsilon ∧ q = f.entry := by
  rcases (edge_wrap hf).mp he with he | ⟨-, h⟩ | ⟨h, -⟩
  · exact absurd he.isAllocated.2 (by omega)
  · exact h
  · exact absurd hf.exit.2 (by omega)

theorem not_edge_wrap_entry (h : n.WellFormed) (hf : n.Holds f) {p : Int} {a : Symbol} :
    ¬(wrap f n).2.Edge p a n.size := by
  rw [edge_wrap hf]
  rintro (he | ⟨-, -, he⟩ | ⟨-, -, he⟩)
  · exact absurd (h.isAllocated he).2 (by omega)
  · exact absurd hf.entry.2 (by omega)
  · omega

theorem not_edge_wrap_exit (hf : n.Holds f) {a : Symbol} {q : Int} :
    ¬(wrap f n).2.Edge (n.size + 1) a q := by
  rw [edge_wrap hf]
  rintro (he | ⟨he, -⟩ | ⟨he, -⟩)
  · exact absurd he.isAllocated.2 (by omega)
  · omega
  · exact absurd hf.exit.2 (by omega)

/-- A choice leads through one of its fragments, as there is no way from one to the other. -/
theorem through_of_path_choose {S T : Int → Prop} (hf : n.Confined S f) (hg : n.Confined T g)
    (hapart : ∀ q, S q → ¬T q) {w : Text}
    (h : (choose f g n).2.Path n.size w (n.size + 1)) :
    n.Path f.entry w f.exit ∨ n.Path g.entry w g.exit := by
  have hedge {p a q} := edge_choose (p := p) (b := a) (q := q) hf.holds hg.holds
  have hlast (a : Symbol) (q : Int) : ¬(choose f g n).2.Edge (n.size + 1) a q :=
    not_edge_choose_exit hf.holds hg.holds
  -- in either region, the only new edge goes from the exit to the new last state
  have hS {p a q} (hp : S p) (he : (choose f g n).2.Edge p a q) :
      n.Edge p a q ∨ (p = f.exit ∧ a = epsilon ∧ q = n.size + 1) := by
    rcases hedge.mp he with he | ⟨rfl, -⟩ | ⟨rfl | rfl, h⟩
    · exact .inl he
    · exact absurd (hf.lt_size hp) (by omega)
    · exact .inr ⟨rfl, h⟩
    · exact absurd hg.exit (hapart _ hp)
  have hT {p a q} (hp : T p) (he : (choose f g n).2.Edge p a q) :
      n.Edge p a q ∨ (p = g.exit ∧ a = epsilon ∧ q = n.size + 1) := by
    rcases hedge.mp he with he | ⟨rfl, -⟩ | ⟨rfl | rfl, h⟩
    · exact .inl he
    · exact absurd (hg.lt_size hp) (by omega)
    · exact absurd hp (hapart _ hf.exit)
    · exact .inr ⟨rfl, h⟩
  obtain ⟨q, rfl | rfl, h⟩ := h.exists_silent (edge_choose_entry hf.holds hg.holds) (by omega)
  · exact .inl (hf.through hS hlast hf.entry h)
  · exact .inr (hg.through hT hlast hg.entry h)

theorem between_choose {S T : Int → Prop} (hf : n.Confined S f) (hg : n.Confined T g)
    (hapart : ∀ q, S q → ¬T q) :
    (choose f g n).2.between (choose f g n).1 = n.between f + n.between g := by
  have hedge {p a q} := edge_choose (p := p) (b := a) (q := q) hf.holds hg.holds
  ext w
  rw [choose_fst, mem_between_newEnds, Language.mem_add, mem_between, mem_between]
  constructor
  · exact through_of_path_choose hf hg hapart
  · have hmono {p a q} (he : n.Edge p a q) : (choose f g n).2.Edge p a q := hedge.mpr (.inl he)
    have hentry {q : Int} (hq : q = f.entry ∨ q = g.entry) :
        (choose f g n).2.Edge n.size epsilon q := hedge.mpr (.inr (.inl ⟨rfl, rfl, hq⟩))
    have hexit {p : Int} (hp : p = f.exit ∨ p = g.exit) :
        (choose f g n).2.Edge p epsilon (n.size + 1) := hedge.mpr (.inr (.inr ⟨hp, rfl, rfl⟩))
    rintro (h | h)
    · exact .silent (hentry (.inl rfl)) ((h.mono hmono).tail_silent (hexit (.inl rfl)))
    · exact .silent (hentry (.inr rfl)) ((h.mono hmono).tail_silent (hexit (.inr rfl)))

theorem between_wrap (h : n.WellFormed) (hf : n.Holds f) :
    (wrap f n).2.between (wrap f n).1 = n.between f := by
  have hedge {p a q} := edge_wrap (p := p) (b := a) (q := q) hf
  ext w
  rw [wrap_fst, mem_between_newEnds, mem_between]
  constructor
  · intro hw
    -- the region is that of all states: the only way out of it is the new last edge
    have hS {p a q} (hp : n.IsAllocated p) (he : (wrap f n).2.Edge p a q) :
        n.Edge p a q ∨ (p = f.exit ∧ a = epsilon ∧ q = n.size + 1) := by
      rcases hedge.mp he with he | ⟨rfl, -⟩ | h
      · exact .inl he
      · exact absurd hp.2 (by omega)
      · exact .inr h
    have hlast (a : Symbol) (q : Int) : ¬(wrap f n).2.Edge (n.size + 1) a q :=
      not_edge_wrap_exit hf
    obtain ⟨q, rfl, hw⟩ := hw.exists_silent (edge_wrap_entry hf) (by omega)
    exact (Confined.all h hf).through hS hlast hf.entry hw
  · intro hw
    have hentry : (wrap f n).2.Edge n.size epsilon f.entry :=
      hedge.mpr (.inr (.inl ⟨rfl, rfl, rfl⟩))
    have hexit : (wrap f n).2.Edge f.exit epsilon (n.size + 1) :=
      hedge.mpr (.inr (.inr ⟨rfl, rfl, rfl⟩))
    exact .silent hentry ((hw.mono fun he => hedge.mpr (.inl he)).tail_silent hexit)

theorem append_mem_kstar {l : Language CodePoint} {u v : Text} (hu : u ∈ l) (hv : v ∈ l∗) :
    u ++ v ∈ l∗ :=
  (mul_kstar_le_kstar : l * l∗ ≤ l∗) (Language.append_mem_mul hu hv)

/-- A path in a loop to the exit of the fragment first runs through the rest of the fragment, unless
it starts at the entry and skips it, and then repeats the fragment. -/
theorem exists_of_path_loop (hf : n.Holds f) (hentry : ∀ p a, ¬n.Edge p a f.entry)
    (hexit : ∀ a q, ¬n.Edge f.exit a q) {p : Int} {w : Text} (h : (loop f n).2.Path p w f.exit) :
    ∃ u v, w = u ++ v ∧ (n.Path p u f.exit ∨ (p = f.entry ∧ u = [])) ∧ v ∈ (n.between f)∗ := by
  -- the induction goes from the first edge on, with the end of the path fixed to the exit
  obtain ⟨r, hr⟩ : ∃ r, f.exit = r := ⟨_, rfl⟩
  rw [hr] at h
  induction h with
  | nil =>
    subst hr
    exact ⟨[], [], rfl, .inl (.nil _), Language.nil_mem_kstar _⟩
  | silent he h ih =>
    obtain ⟨u, v, rfl, hu, hv⟩ := ih hr
    rcases (edge_loop hf).mp he with he | ⟨rfl, -, rfl⟩ | ⟨rfl, -, rfl⟩
    · rcases hu with hu | ⟨rfl, -⟩
      · exact ⟨u, v, rfl, .inl (.silent he hu), hv⟩
      · exact absurd he (hentry _ _)
    -- back at the entry: what follows is another repetition, or skips it
    · refine ⟨[], u ++ v, rfl, .inl (.nil _), ?_⟩
      rcases hu with hu | ⟨-, rfl⟩
      · exact append_mem_kstar hu hv
      · exact hv
    -- the fragment is skipped: nothing leaves the exit but the way back
    · rcases hu with hu | ⟨-, rfl⟩
      · obtain ⟨-, rfl⟩ := Path.eq_of_not_left hexit hu
        exact ⟨[], v, rfl, .inr ⟨rfl, rfl⟩, hv⟩
      · exact ⟨[], v, rfl, .inr ⟨rfl, rfl⟩, hv⟩
  | read he h ih =>
    obtain ⟨u, v, rfl, hu, hv⟩ := ih hr
    rcases (edge_loop hf).mp he with he | ⟨-, ha, -⟩ | ⟨-, ha, -⟩
    · rcases hu with hu | ⟨rfl, -⟩
      · exact ⟨_ :: u, v, rfl, .inl (.read he hu), hv⟩
      · exact absurd he (hentry _ _)
    · exact absurd ha (by simp [epsilon])
    · exact absurd ha (by simp [epsilon])

theorem between_loop (hf : n.Holds f) (hentry : ∀ p a, ¬n.Edge p a f.entry)
    (hexit : ∀ a q, ¬n.Edge f.exit a q) :
    (loop f n).2.between (loop f n).1 = (n.between f)∗ := by
  have hedge {p a q} := edge_loop (p := p) (b := a) (q := q) hf
  ext w
  rw [mem_between]
  show (loop f n).2.Path f.entry w f.exit ↔ _
  constructor
  · intro h
    obtain ⟨u, v, rfl, hu, hv⟩ := exists_of_path_loop hf hentry hexit h
    rcases hu with hu | ⟨-, rfl⟩
    · exact append_mem_kstar hu hv
    · exact hv
  · intro h
    obtain ⟨us, rfl, hus⟩ := Language.mem_kstar.mp h
    have hskip : (loop f n).2.Edge f.entry epsilon f.exit := hedge.mpr (.inr (.inr ⟨rfl, rfl, rfl⟩))
    have hloop : (loop f n).2.Edge f.exit epsilon f.entry := hedge.mpr (.inr (.inl ⟨rfl, rfl, rfl⟩))
    clear h
    induction us with
    | nil => exact .silent hskip (.nil _)
    | cons u us ih =>
      have hu : n.Path f.entry u f.exit := hus u List.mem_cons_self
      have ih := ih fun v hv => hus v (List.mem_cons_of_mem u hv)
      exact (hu.mono fun he => hedge.mpr (.inl he)).append (.silent hloop ih)

/-- Whether it loops on the ends of its fragment or on new ones, a star repeats the fragment any
number of times. -/
theorem between_star (h : n.WellFormed) (hf : n.Holds f) :
    (star f n).2.between (star f n).1 = (n.between f)∗ := by
  rw [star_eq]
  by_cases hwrap : (n.hasIncoming f.entry || n.hasOutgoing f.exit) = true
  · rw [if_pos hwrap, between_loop (holds_wrap f n), between_wrap h hf]
    · rw [wrap_fst]
      exact fun p a => not_edge_wrap_entry h hf
    · rw [wrap_fst]
      exact fun a q => not_edge_wrap_exit hf
  · rw [if_neg hwrap]
    rw [Bool.or_eq_true, h.hasIncoming_iff, h.hasOutgoing_iff, not_or] at hwrap
    exact between_loop hf (fun p a he => hwrap.1 ⟨p, a, he⟩) fun a q he => hwrap.2 ⟨a, q, he⟩

end RegexAutomata.Nfa
