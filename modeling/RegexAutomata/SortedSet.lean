/-
Finite sets with one written form.

A `SortedSet` is the list of its elements in strictly ascending order, so two sets with the same
elements are the same value and can be compared, numbered and printed directly.

* `SortedSet.mem_ofList` — collecting a list keeps exactly its elements;
* `SortedSet.ext` — a set is determined by its elements.
-/
import Std.Data.TreeSet

namespace RegexAutomata

/-- A finite set, as its elements in strictly ascending order. -/
structure SortedSet (α : Type) [Ord α] where
  toList : List α
  ascending : toList.Pairwise fun a b => compare a b = .lt

namespace SortedSet

variable {α β : Type} [Ord α]

instance [DecidableEq α] : DecidableEq (SortedSet α) := fun s t =>
  if h : s.toList = t.toList then isTrue (by cases s; cases t; simp_all)
  else isFalse (fun e => h (e ▸ rfl))

instance : Membership α (SortedSet α) := ⟨fun s a => a ∈ s.toList⟩

instance [DecidableEq α] (a : α) (s : SortedSet α) : Decidable (a ∈ s) :=
  inferInstanceAs (Decidable (a ∈ s.toList))

def empty : SortedSet α := ⟨[], .nil⟩

instance : EmptyCollection (SortedSet α) := ⟨empty⟩

instance : Inhabited (SortedSet α) := ⟨empty⟩

def isEmpty (s : SortedSet α) : Bool := s.toList.isEmpty

def size (s : SortedSet α) : Nat := s.toList.length

@[simp] theorem not_mem_empty (a : α) : a ∉ (∅ : SortedSet α) := by
  show a ∉ ([] : List α)
  simp

theorem mem_iff {a : α} {s : SortedSet α} : a ∈ s ↔ a ∈ s.toList := Iff.rfl

theorem toList_inj {s t : SortedSet α} : s.toList = t.toList ↔ s = t := by
  constructor
  · intro h
    cases s
    cases t
    simp_all
  · rintro rfl
    rfl

theorem isEmpty_iff {s : SortedSet α} : s.isEmpty = true ↔ s = ∅ := by
  constructor
  · intro h
    obtain ⟨l, hl⟩ := s
    obtain rfl : l = [] := List.isEmpty_iff.mp h
    rfl
  · rintro rfl
    rfl

theorem isEmpty_eq_false_iff {s : SortedSet α} : s.isEmpty = false ↔ ∃ a, a ∈ s := by
  rw [isEmpty, List.isEmpty_eq_false_iff_exists_mem]
  rfl

variable [Std.TransOrd α]

/-- The elements of a search tree. -/
def ofTree (t : Std.TreeSet α) : SortedSet α :=
  ⟨t.toList, Std.TreeSet.ordered_toList⟩

/-- The elements of a list, each once. -/
def ofList (l : List α) : SortedSet α := ofTree (Std.TreeSet.ofList l)

def insert (a : α) (s : SortedSet α) : SortedSet α := ofList (a :: s.toList)

def union (s t : SortedSet α) : SortedSet α := ofList (s.toList ++ t.toList)

instance : Union (SortedSet α) := ⟨union⟩

/-- The elements of all the sets that `f` gives for the members of a list. -/
def unionOver (l : List β) (f : β → SortedSet α) : SortedSet α :=
  ofList (l.flatMap fun b => (f b).toList)

variable [Std.LawfulEqOrd α]

@[simp] theorem mem_ofTree {a : α} {t : Std.TreeSet α} : a ∈ ofTree t ↔ a ∈ t :=
  Std.TreeSet.mem_toList

@[simp] theorem mem_ofList {a : α} {l : List α} : a ∈ ofList l ↔ a ∈ l := by
  classical
  let : BEq α := instBEqOfDecidableEq
  rw [ofList, mem_ofTree, Std.TreeSet.mem_ofList]
  simp

@[simp] theorem mem_insert {a b : α} {s : SortedSet α} : a ∈ s.insert b ↔ a = b ∨ a ∈ s := by
  rw [insert, mem_ofList, List.mem_cons, mem_iff]

@[simp] theorem mem_union {a : α} {s t : SortedSet α} : a ∈ s ∪ t ↔ a ∈ s ∨ a ∈ t := by
  show a ∈ s.union t ↔ _
  rw [union, mem_ofList, List.mem_append, mem_iff, mem_iff]

@[simp] theorem mem_unionOver {a : α} {l : List β} {f : β → SortedSet α} :
    a ∈ unionOver l f ↔ ∃ b ∈ l, a ∈ f b := by
  rw [unionOver, mem_ofList, List.mem_flatMap]
  rfl

/-- Two sets with the same elements are equal. -/
theorem ext {s t : SortedSet α} (h : ∀ a, a ∈ s ↔ a ∈ t) : s = t := by
  obtain ⟨l, hl⟩ := s
  obtain ⟨m, hm⟩ := t
  suffices l = m by subst this; rfl
  change ∀ a, a ∈ l ↔ a ∈ m at h
  induction l generalizing m with
  | nil =>
    cases m with
    | nil => rfl
    | cons b m => simpa using h b
  | cons a l ih =>
    cases m with
    | nil => simpa using h a
    | cons b m =>
      rw [List.pairwise_cons] at hl hm
      have irrefl (x : α) : compare x x ≠ .lt := by simp
      have asymm {x y : α} (hxy : compare x y = .lt) : compare y x ≠ .lt := by
        rw [Std.OrientedOrd.eq_swap (a := y) (b := x), hxy]
        simp
      have hab : a = b := by
        rcases List.mem_cons.mp ((h a).mp List.mem_cons_self) with e | ham
        · exact e
        · rcases List.mem_cons.mp ((h b).mpr List.mem_cons_self) with e | hbl
          · exact e.symm
          · exact absurd (hl.1 b hbl) (asymm (hm.1 a ham))
      subst hab
      refine congrArg (a :: ·) (ih hl.2 m hm.2 fun x => ⟨fun hx => ?_, fun hx => ?_⟩)
      · rcases List.mem_cons.mp ((h x).mp (List.mem_cons_of_mem _ hx)) with rfl | hxm
        · exact absurd (hl.1 _ hx) (irrefl _)
        · exact hxm
      · rcases List.mem_cons.mp ((h x).mpr (List.mem_cons_of_mem _ hx)) with rfl | hxl
        · exact absurd (hm.1 _ hx) (irrefl _)
        · exact hxl

end SortedSet

end RegexAutomata
