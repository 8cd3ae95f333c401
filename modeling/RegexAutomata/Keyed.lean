/-
Lists of items with keys.

A new item takes the place of the first one with its key, or else the end of the list, so that the
keys keep the order in which they were first given. Pairs are found under their first component by
`List.lookup`, and items of another form by `List.find?`.

* `Keyed.find?_put_self`, `Keyed.find?_put_of_ne` — putting an item changes what is found under its
  key only; `Keyed.lookup_put_self` and `Keyed.lookup_put_of_ne` are the same for pairs;
* `Keyed.map_put_of_mem`, `Keyed.put_of_not_mem` — a key that is present keeps its place, and a new
  one comes last;
* `Keyed.nodup_map_put`, `Keyed.lookup_eq_some_iff_mem` — so each key stands once if it did before,
  and then every pair is found under its key.
-/

namespace RegexAutomata.Keyed

variable {κ α β γ : Type} [BEq κ]

/-- Puts an item in the place of the first one with its key, or else at the end. -/
def put (key : α → κ) (new : α) : List α → List α
  | [] => [new]
  | old :: rest => if key old == key new then new :: rest else old :: put key new rest

variable {key : α → κ} {new : α} {l : List α}

theorem put_ne_nil : put key new l ≠ [] := by
  cases l with
  | nil => simp [put]
  | cons old rest =>
    rw [put]
    split <;> exact List.cons_ne_nil _ _

/-- Putting an item and changing all items can be exchanged if the keys stay. -/
theorem map_put {f : α → β} {key' : β → κ} (hkey : ∀ a, key' (f a) = key a) (new : α)
    (l : List α) : (put key new l).map f = put key' (f new) (l.map f) := by
  induction l with
  | nil => rfl
  | cons old rest ih =>
    rw [put, List.map_cons, put, hkey, hkey, ← ih]
    split <;> rfl

variable [LawfulBEq κ]

@[simp] theorem find?_put_self (new : α) (l : List α) :
    (put key new l).find? (key · == key new) = some new := by
  induction l with
  | nil => simp [put]
  | cons old rest ih =>
    by_cases h : key old = key new
    · simp [put, h]
    · simp [put, h, ih]

theorem find?_put_of_ne {k : κ} (h : k ≠ key new) (l : List α) :
    (put key new l).find? (key · == k) = l.find? (key · == k) := by
  induction l with
  | nil => simp [put, Ne.symm h]
  | cons old rest ih =>
    by_cases hold : key old = key new
    · simp [put, hold, Ne.symm h]
    · simp [put, hold, List.find?_cons, ih]

theorem map_put_of_mem (h : key new ∈ l.map key) : (put key new l).map key = l.map key := by
  induction l with
  | nil => simp at h
  | cons old rest ih =>
    by_cases hold : key old = key new
    · simp [put, hold]
    · simp only [List.map_cons, List.mem_cons] at h
      simp [put, hold, ih (h.resolve_left (Ne.symm hold))]

theorem put_of_not_mem (h : key new ∉ l.map key) : put key new l = l ++ [new] := by
  induction l with
  | nil => rfl
  | cons old rest ih =>
    rw [List.map_cons, List.mem_cons, not_or] at h
    simp [put, Ne.symm h.1, ih h.2]

theorem nodup_map_put (h : (l.map key).Nodup) : ((put key new l).map key).Nodup := by
  by_cases hmem : key new ∈ l.map key
  · rwa [map_put_of_mem hmem]
  · rw [put_of_not_mem hmem, List.map_append, List.map_singleton]
    exact List.nodup_append.mpr ⟨h, List.pairwise_singleton _ _, by simpa using hmem⟩

theorem eq_or_mem_of_mem_put {a : α} (h : a ∈ put key new l) : a = new ∨ a ∈ l := by
  induction l with
  | nil => exact .inl (List.mem_singleton.mp h)
  | cons old rest ih =>
    by_cases hold : key old = key new
    · rw [put, if_pos (beq_iff_eq.mpr hold)] at h
      exact (List.mem_cons.mp h).imp_right (List.mem_cons_of_mem old)
    · rw [put, if_neg (mt beq_iff_eq.mp hold)] at h
      rcases List.mem_cons.mp h with rfl | h
      · exact .inr List.mem_cons_self
      · exact (ih h).imp_right (List.mem_cons_of_mem old)

/-! ### Pairs -/

/-- Looking up is finding the first pair with the key. -/
theorem lookup_eq_map_find? (k : κ) (l : List (κ × β)) :
    l.lookup k = (l.find? (·.1 == k)).map Prod.snd := by
  induction l with
  | nil => rfl
  | cons e rest ih =>
    obtain ⟨k', b⟩ := e
    by_cases h : k' = k
    · simp [h]
    · simp [List.lookup_cons, h, beq_eq_false_iff_ne.mpr (Ne.symm h), ih]

@[simp] theorem lookup_put_self (k : κ) (b : β) (l : List (κ × β)) :
    (put Prod.fst (k, b) l).lookup k = some b := by
  have hfind : (put Prod.fst (k, b) l).find? (·.1 == k) = some (k, b) := find?_put_self (k, b) l
  rw [lookup_eq_map_find?, hfind]
  rfl

theorem lookup_put_of_ne {k k' : κ} (h : k' ≠ k) (b : β) (l : List (κ × β)) :
    (put Prod.fst (k, b) l).lookup k' = l.lookup k' := by
  rw [lookup_eq_map_find?, lookup_eq_map_find?, find?_put_of_ne h]

theorem mem_of_lookup {k : κ} {b : β} {l : List (κ × β)} (h : l.lookup k = some b) :
    (k, b) ∈ l := by
  obtain ⟨l₁, l₂, rfl, -⟩ := List.lookup_eq_some_iff.mp h
  exact List.mem_append_right l₁ List.mem_cons_self

theorem lookup_map (f : β → γ) (k : κ) (l : List (κ × β)) :
    (l.map fun (k, b) => (k, f b)).lookup k = (l.lookup k).map f := by
  rw [lookup_eq_map_find?, lookup_eq_map_find?, List.find?_map, Option.map_map, Option.map_map]
  rfl

/-- Where each key stands once, every pair is found under its key. -/
theorem lookup_eq_some_iff_mem {k : κ} {b : β} {l : List (κ × β)} (h : (l.map Prod.fst).Nodup) :
    l.lookup k = some b ↔ (k, b) ∈ l := by
  refine ⟨mem_of_lookup, fun hmem => ?_⟩
  obtain ⟨l₁, l₂, rfl⟩ := List.append_of_mem hmem
  refine List.lookup_eq_some_iff.mpr ⟨l₁, l₂, rfl, fun p hp => ?_⟩
  rw [List.map_append, List.nodup_append] at h
  simpa using (h.2.2 p.1 (List.mem_map_of_mem hp) k List.mem_cons_self).symm

end RegexAutomata.Keyed
