/-
Automata that grow.

An expression that is read into an automaton creates states and links the states that it created;
it never links older ones. `Grows labels base n m` says that `m` comes from `n` in this way, where
only states from the number `base` on are linked, and the new edges read nothing or one of `labels`.

* `Grows.wellFormed`, `Grows.labelsKnown` — growth keeps what holds of every automaton;
* `Grows.builds` — no edge would be refused if it was added with all checks;
* `GrowsTo.literal`, `GrowsTo.join`, `GrowsTo.chooseAll`, `GrowsTo.star` — the operations on
  fragments whose ends are new are growth.
-/
import RegexAutomata.Proofs.Nfa.Fragment

namespace RegexAutomata.Nfa

/-- New states are created, and states from a number on are linked. -/
inductive Grows (labels : Symbol → Prop) (base : Nat) (n : Nfa) : Nfa → Prop where
  | refl : Grows labels base n n
  | newState {m : Nfa} : Grows labels base n m → Grows labels base n m.newState.2
  | link {m : Nfa} {p q : Int} {a : Symbol} : Grows labels base n m → m.IsAllocated p →
    m.IsAllocated q → base ≤ p → base ≤ q → (a = epsilon ∨ labels a) →
    Grows labels base n (m.link p a q)

variable {labels : Symbol → Prop} {base : Nat} {n m l : Nfa}

namespace Grows

theorem trans (h : Grows labels base n m) (h' : Grows labels base m l) : Grows labels base n l := by
  induction h' with
  | refl => exact h
  | newState _ ih => exact .newState ih
  | link _ hp hq hbp hbq ha ih => exact .link ih hp hq hbp hbq ha

theorem mono {base' : Nat} (hbase : base' ≤ base) (h : Grows labels base n m) :
    Grows labels base' n m := by
  induction h with
  | refl => exact .refl
  | newState _ ih => exact .newState ih
  | link _ hp hq hbp hbq ha ih => exact .link ih hp hq (by omega) (by omega) ha

theorem size_le (h : Grows labels base n m) : n.size ≤ m.size := by
  induction h with
  | refl => exact Nat.le_refl _
  | newState _ ih => rw [size_newState]; omega
  | link _ _ _ _ _ _ ih => rwa [size_link]

/-- No edge is removed. -/
theorem edge (h : Grows labels base n m) {p q : Int} {a : Symbol} (he : n.Edge p a q) :
    m.Edge p a q := by
  induction h with
  | refl => exact he
  | newState _ ih => exact edge_newState.mpr ih
  | link _ hp _ _ _ _ ih => exact (edge_link hp).mpr (.inl ih)

/-- An edge that is added joins states from the number on. -/
theorem edge_or (h : Grows labels base n m) {p q : Int} {a : Symbol} (he : m.Edge p a q) :
    n.Edge p a q ∨ (base ≤ p ∧ p < m.size) ∧ base ≤ q ∧ q < m.size := by
  induction h with
  | refl => exact .inl he
  | newState _ ih =>
    refine (ih (edge_newState.mp he)).imp_right ?_
    rintro ⟨⟨hbp, hp⟩, hbq, hq⟩
    rw [size_newState]
    omega
  | link _ hp hq hbp hbq _ ih =>
    rw [size_link]
    rcases (edge_link hp).mp he with he | ⟨rfl, rfl, rfl⟩
    · exact ih he
    · exact .inr ⟨⟨hbp, hp.2⟩, hbq, hq.2⟩

theorem alphabet_eq (h : Grows labels base n m) : m.alphabet = n.alphabet := by
  induction h with
  | refl => rfl
  | newState _ ih => exact ih
  | link _ _ _ _ _ _ ih => rwa [alphabet_link]

theorem wellFormed (h : Grows labels base n m) (hn : n.WellFormed) : m.WellFormed := by
  induction h with
  | refl => exact hn
  | newState _ ih => exact ih.newState
  | link _ hp hq _ _ _ ih => exact ih.link hp hq

theorem labelsKnown (h : Grows labels base n m) (hlabels : ∀ a, labels a → a ∈ n.alphabet)
    (hn : n.LabelsKnown) : m.LabelsKnown := by
  induction h with
  | refl => exact hn
  | newState _ ih => exact ih.newState
  | link h hp _ _ _ ha ih =>
    rw [← h.alphabet_eq] at hlabels
    exact ih.link hp (ha.imp_right (hlabels _)) _

end Grows

/-- States are created and edges are added, none of which is refused. -/
inductive Builds (n : Nfa) : Nfa → Prop where
  | refl : Builds n n
  | newState {m : Nfa} : Builds n m → Builds n m.newState.2
  | addTransition {m l : Nfa} {p q : Int} {a : Symbol} : Builds n m →
    Nfa.addTransition p a q m = .ok () l → Builds n l

/-- What is linked passes the checks that an added edge goes through. -/
theorem Grows.builds (h : Grows labels base n m) (hlabels : ∀ a, labels a → a ∈ n.alphabet) :
    Builds n m := by
  induction h with
  | refl => exact .refl
  | newState _ ih => exact .newState ih
  | link h hp hq _ _ ha ih =>
    rw [← h.alphabet_eq] at hlabels
    exact .addTransition ih (addTransition_eq_ok_iff.mpr ⟨hp, hq, ha.imp_right (hlabels _), rfl⟩)

/-- Both ends of a fragment are states from a number on. -/
structure Above (base : Nat) (n : Nfa) (f : Fragment) : Prop where
  holds : n.Holds f
  le_entry : base ≤ f.entry
  le_exit : base ≤ f.exit

variable {f g : Fragment}

theorem Above.mono (h : n.size ≤ m.size) (hf : Above base n f) : Above base m f :=
  ⟨hf.holds.mono h, hf.le_entry, hf.le_exit⟩

theorem Above.newEnds (h : base ≤ n.size) (hm : n.size + 2 ≤ m.size) : Above base m n.newEnds := by
  refine ⟨holds_newEnds hm, ?_, ?_⟩ <;> simp only [Nfa.newEnds] <;> omega

/-- An operation makes an automaton grow and gives a fragment of its new part. -/
def GrowsTo (labels : Symbol → Prop) (base : Nat) (n : Nfa) (r : Fragment × Nfa) : Prop :=
  Grows labels base n r.2 ∧ Above base r.2 r.1

theorem Grows.growsTo {r : Fragment × Nfa} (h : Grows labels base n m)
    (hr : GrowsTo labels base m r) : GrowsTo labels base n r := ⟨h.trans hr.1, hr.2⟩

theorem Grows.grow (n : Nfa) : Grows labels base n n.grow := .newState (.newState .refl)

namespace GrowsTo

theorem literal {a : Symbol} (hn : base ≤ n.size) (ha : labels a) :
    GrowsTo labels base n (Nfa.literal a n) := by
  rw [literal_eq]
  refine ⟨?_, .newEnds hn (by simp)⟩
  exact .link (.grow n) n.isAllocated_newEnds_grow.1 n.isAllocated_newEnds_grow.2 (by omega)
    (by omega) (.inr ha)

theorem join (hf : Above base n f) (hg : Above base n g) : GrowsTo labels base n (Nfa.join f g n) :=
  ⟨.link .refl hf.holds.exit hg.holds.entry hf.le_exit hg.le_entry (.inl rfl),
    hf.holds.join hg.holds, hf.le_entry, hg.le_exit⟩

theorem choose (hn : base ≤ n.size) (hf : Above base n f) (hg : Above base n g) :
    GrowsTo labels base n (Nfa.choose f g n) := by
  have hf := hf.mono (m := n.grow) (by simp)
  have hg := hg.mono (m := n.grow) (by simp)
  obtain ⟨hnew, hnew'⟩ := n.isAllocated_newEnds_grow
  have hentry : (base : Int) ≤ n.size := by omega
  have hexit : (base : Int) ≤ n.size + 1 := by omega
  rw [choose_eq]
  refine ⟨?_, .newEnds hn (by simp)⟩
  -- the two edges from the new entry, then the two edges to the new exit
  refine .link (.link ?_ (by simpa using hf.holds.exit) (by simpa using hnew') hf.le_exit hexit
    (.inl rfl)) (by simpa using hg.holds.exit) (by simpa using hnew') hg.le_exit hexit (.inl rfl)
  exact .link (.link (.grow n) hnew hf.holds.entry hentry hf.le_entry (.inl rfl))
    (isAllocated_link.mpr hnew) (isAllocated_link.mpr hg.holds.entry) hentry hg.le_entry (.inl rfl)

theorem wrap (hn : base ≤ n.size) (hf : Above base n f) : GrowsTo labels base n (Nfa.wrap f n) := by
  have hf := hf.mono (m := n.grow) (by simp)
  obtain ⟨hnew, hnew'⟩ := n.isAllocated_newEnds_grow
  rw [wrap_eq]
  refine ⟨?_, .newEnds hn (by simp)⟩
  exact .link (.link (.grow n) hnew hf.holds.entry (by omega) hf.le_entry (.inl rfl))
    (by simpa using hf.holds.exit) (by simpa using hnew') hf.le_exit (by omega) (.inl rfl)

theorem loop (hf : Above base n f) : GrowsTo labels base n (Nfa.loop f n) :=
  ⟨.link (.link .refl hf.holds.exit hf.holds.entry hf.le_exit hf.le_entry (.inl rfl))
    (isAllocated_link.mpr hf.holds.entry) (isAllocated_link.mpr hf.holds.exit) hf.le_entry
    hf.le_exit (.inl rfl), hf.holds.loop, hf.le_entry, hf.le_exit⟩

theorem star (hn : base ≤ n.size) (hf : Above base n f) : GrowsTo labels base n (Nfa.star f n) := by
  rw [star_eq]
  split
  · have hw : GrowsTo labels base n (Nfa.wrap f n) := wrap hn hf
    exact hw.1.growsTo (loop hw.2)
  · exact loop hf

theorem chooseAll (hn : base ≤ n.size) (hf : Above base n f) {gs : List Fragment}
    (hgs : ∀ g ∈ gs, Above base n g) : GrowsTo labels base n (Nfa.chooseAll f gs n) := by
  induction gs generalizing f with
  | nil => exact ⟨.refl, hf⟩
  | cons g rest ih =>
    have hg := hgs g List.mem_cons_self
    obtain ⟨hgrows, habove⟩ := ih hg fun k hk => hgs k (List.mem_cons_of_mem g hk)
    exact hgrows.growsTo (choose (hn.trans hgrows.size_le) (hf.mono hgrows.size_le) habove)

end GrowsTo

end RegexAutomata.Nfa
