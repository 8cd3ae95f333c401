/-
What the subset construction finds.

`Subsets.Invariant` holds at any time of the construction: every set has one number, every move goes
to the set that the symbol leads to, and a state whose moves are not known yet waits in the queue.

* `Subsets.adds_addMove`, `Subsets.Invariant.step`, `Subsets.Invariant.run` — each step keeps it, and
  so does any number of steps;
* `Subsets.Invariant.size_found_le` — there are at most as many states as sets of states;
* `Subsets.Invariant.queue_run`, `Subsets.run_complete` — so the construction ends with an empty queue;
* `Subsets.invariant_complete` — and then all moves are known.
-/
import RegexAutomata.Dfa.Subsets
import RegexAutomata.Proofs.Nfa.Reach
import Mathlib.Data.Finset.Powerset
import Mathlib.Data.Fintype.Card

namespace RegexAutomata.Dfa

open Relation (ReflTransGen)

namespace Subsets

variable {n : Nfa} {known : Nat → Symbol → Prop} {b : Subsets} {s : StateSet} {q : Nat}

/-! ### Numbering -/

/-- Every set has one number, which is its place. -/
def Numbered (b : Subsets) : Prop :=
  ∀ (s : StateSet) (q : Nat), b.numbers[s.toList]? = some q ↔ b.found[q]? = some s

/-- What numbering a set does: it gets a number, if it has none, and nothing else changes. -/
structure Numbers (b : Subsets) (s : StateSet) (q : Nat) (b' : Subsets) : Prop where
  numbered : b'.Numbered
  found : b'.found[q]? = some s
  found_of : ∀ {p : Nat} {t : StateSet}, b.found[p]? = some t → b'.found[p]? = some t
  /-- there is at most one new place, the one of the set -/
  lt_or_eq : ∀ {p}, p < b'.found.size → p < b.found.size ∨ (p = q ∧ q = b.found.size)
  queue_eq : b'.queue = b.queue
  processed_eq : b'.processed = b.processed
  moves_eq : b'.moves = b.moves

theorem Numbered.insert (h : b.Numbered) (hs : b.numbers[s.toList]? = none) :
    Numbered { b with
      found := b.found.push s, numbers := b.numbers.insert s.toList b.found.size } := by
  intro t p
  have hkey : compare s.toList t.toList = .eq ↔ s = t := by
    rw [Std.LawfulEqCmp.compare_eq_iff_eq, SortedSet.toList_inj]
  rw [Std.TreeMap.getElem?_insert]
  show _ ↔ (b.found.push s)[p]? = some t
  rw [Array.getElem?_push]
  by_cases hst : s = t
  · subst hst
    rw [if_pos (hkey.mpr rfl)]
    by_cases hp : p = b.found.size
    · rw [if_pos hp, hp]
      simp
    · rw [if_neg hp, ← h, hs, Option.some_inj]
      simp [Ne.symm hp]
  · rw [if_neg (hkey.not.mpr hst), h]
    by_cases hp : p = b.found.size
    · rw [if_pos hp, hp]
      simp [hst]
    · rw [if_neg hp]

theorem numbers_number (h : b.Numbered) (s : StateSet) :
    b.Numbers s (b.number s).1 (b.number s).2 := by
  rw [number]
  cases hs : b.numbers[s.toList]? with
  | some q => exact ⟨h, (h s q).mp hs, id, .inl, rfl, rfl, rfl⟩
  | none =>
    refine ⟨h.insert hs, by simp, ?_, ?_, rfl, rfl, rfl⟩
    · intro p t hp
      have hlt := (Array.getElem?_eq_some_iff.mp hp).1
      show (b.found.push s)[p]? = some t
      rw [Array.getElem?_push, if_neg (by omega), hp]
    · intro p hp
      have hp : p < (b.found.push s).size := hp
      rw [Array.size_push] at hp
      rcases Nat.lt_succ_iff_lt_or_eq.mp hp with hp | hp
      · exact .inl hp
      · exact .inr ⟨hp, rfl⟩

theorem Numbers.lt_size {b' : Subsets} (h : b.Numbers s q b') {p : Nat} (hp : p < b.found.size) :
    p < b'.found.size :=
  (Array.getElem?_eq_some_iff.mp (h.found_of (Array.getElem?_eq_getElem hp))).1

/-! ### The invariant -/

/-- What holds at any time of the construction, when the moves of some states on some symbols are
known. -/
structure Invariant (n : Nfa) (known : Nat → Symbol → Prop) (b : Subsets) : Prop where
  numbered : b.Numbered
  start : b.found[0]? = some n.startStates
  /-- a state other than the start was found by a move from an earlier one -/
  origin : ∀ q : Nat, q < b.found.size → q ≠ 0 →
    ∃ p : Nat, p < q ∧ ∃ a, (⟨p, a, q⟩ : Move) ∈ b.moves
  sound : ∀ m ∈ b.moves, ∃ (q r : Nat) (s : StateSet), m = ⟨q, m.symbol, r⟩ ∧ known q m.symbol ∧
    b.found[q]? = some s ∧ (n.step s m.symbol).isEmpty = false ∧
    b.found[r]? = some (n.step s m.symbol)
  complete : ∀ (q : Nat) (a : Symbol) (s : StateSet), known q a → b.found[q]? = some s →
    (n.step s a).isEmpty = false → ∃ r, (⟨q, a, r⟩ : Move) ∈ b.moves
  known_lt : ∀ (q : Nat) (a : Symbol), known q a → q < b.found.size
  queue_lt : ∀ q ∈ b.queue, q < b.found.size
  processed_lt : ∀ q ∈ b.processed, q < b.found.size
  pending : ∀ q : Nat, q < b.found.size → q ∈ b.processed ∨ q ∈ b.queue

namespace Invariant

theorem initial (n : Nfa) : Invariant n (fun _ _ => False) (initial n) where
  numbered := by
    have hempty : Numbered { found := #[], numbers := ∅, queue := [0] } := by
      intro s q
      simp
    rw [Subsets.initial, Std.TreeMap.ofList_singleton]
    exact hempty.insert (s := n.startStates) rfl
  start := rfl
  origin q hq h := by
    have hq : q < 1 := hq
    omega
  sound m hm := absurd hm (Array.not_mem_empty m)
  complete q a s h := h.elim
  known_lt q a h := h.elim
  queue_lt q hq := by
    obtain rfl := List.mem_singleton.mp hq
    exact Nat.one_pos
  processed_lt q hq := absurd hq Std.TreeSet.not_mem_emptyc
  pending q hq := by
    have hq : q < 1 := hq
    obtain rfl : q = 0 := by omega
    exact .inr List.mem_cons_self

/-- A symbol on which a state has no move. -/
theorem skip (h : b.Invariant n known) (hq : b.found[q]? = some s) {a : Symbol}
    (hempty : (n.step s a).isEmpty = true) :
    b.Invariant n fun p c => known p c ∨ (p = q ∧ c = a) := by
  refine { h with sound := ?_, complete := ?_, known_lt := ?_ }
  · intro m hm
    obtain ⟨p, r, t, hm', hknown, hrest⟩ := h.sound m hm
    exact ⟨p, r, t, hm', .inl hknown, hrest⟩
  · rintro p c t (hknown | ⟨rfl, rfl⟩) ht hne
    · exact h.complete p c t hknown ht hne
    · obtain rfl : s = t := Option.some_inj.mp (hq.symm.trans ht)
      rw [hempty] at hne
      exact absurd hne (by simp)
  · rintro p c (hknown | ⟨rfl, rfl⟩)
    · exact h.known_lt p c hknown
    · exact (Array.getElem?_eq_some_iff.mp hq).1

section Push

variable {a : Symbol} {r : Nat} {b' : Subsets}

/-- A move to a set that is new leads to a later state. -/
theorem push_origin (h : b.Invariant n known) (hq : b.found[q]? = some s)
    (hnum : b.Numbers (n.step s a) r b') {p : Nat} (hp : p < b'.found.size) (hne : p ≠ 0) :
    ∃ o : Nat, o < p ∧ ∃ c, (⟨o, c, p⟩ : Move) ∈ b'.moves.push ⟨q, a, r⟩ := by
  have hlt := (Array.getElem?_eq_some_iff.mp hq).1
  rcases hnum.lt_or_eq hp with hp | ⟨rfl, hnew⟩
  · obtain ⟨o, ho, c, hm⟩ := h.origin p hp hne
    exact ⟨o, ho, c, Array.mem_push.mpr (.inl (hnum.moves_eq ▸ hm))⟩
  · exact ⟨q, by omega, a, Array.mem_push_self⟩

theorem push_sound (h : b.Invariant n known) (hq : b.found[q]? = some s)
    (hempty : (n.step s a).isEmpty = false) (hnum : b.Numbers (n.step s a) r b') {m : Move}
    (hm : m ∈ b'.moves.push ⟨q, a, r⟩) :
    ∃ (p p' : Nat) (t : StateSet), m = ⟨p, m.symbol, p'⟩ ∧
      (known p m.symbol ∨ (p = q ∧ m.symbol = a)) ∧ b'.found[p]? = some t ∧
      (n.step t m.symbol).isEmpty = false ∧ b'.found[p']? = some (n.step t m.symbol) := by
  rcases Array.mem_push.mp hm with hm | rfl
  · rw [hnum.moves_eq] at hm
    obtain ⟨p, p', t, hm', hknown, ht, hne, hp'⟩ := h.sound m hm
    exact ⟨p, p', t, hm', .inl hknown, hnum.found_of ht, hne, hnum.found_of hp'⟩
  · exact ⟨q, r, s, rfl, .inr ⟨rfl, rfl⟩, hnum.found_of hq, hempty, hnum.found⟩

theorem push_complete (h : b.Invariant n known) (hnum : b.Numbers (n.step s a) r b') {p : Nat}
    {c : Symbol} {t : StateSet} (hknown : known p c ∨ (p = q ∧ c = a)) (ht : b'.found[p]? = some t)
    (hne : (n.step t c).isEmpty = false) :
    ∃ p', (⟨p, c, p'⟩ : Move) ∈ b'.moves.push ⟨q, a, r⟩ := by
  rcases hknown with hknown | ⟨rfl, rfl⟩
  · -- the set of a state that was there before is the same as before
    have hp := Array.getElem?_eq_getElem (h.known_lt p c hknown)
    obtain rfl := Option.some_inj.mp ((hnum.found_of hp).symm.trans ht)
    obtain ⟨p', hm⟩ := h.complete p c _ hknown hp hne
    exact ⟨p', Array.mem_push.mpr (.inl (hnum.moves_eq ▸ hm))⟩
  · exact ⟨r, Array.mem_push_self⟩

/-- A symbol on which a state moves to a set that has been numbered. -/
theorem push (h : b.Invariant n known) (hq : b.found[q]? = some s)
    (hempty : (n.step s a).isEmpty = false) (hnum : b.Numbers (n.step s a) r b') :
    Invariant n (fun p c => known p c ∨ (p = q ∧ c = a))
      { b' with queue := b'.queue ++ [r], moves := b'.moves.push ⟨q, a, r⟩ } where
  numbered := hnum.numbered
  start := hnum.found_of h.start
  origin p hp hne := h.push_origin hq hnum hp hne
  sound m hm := h.push_sound hq hempty hnum hm
  complete p c t hknown ht hne := h.push_complete hnum hknown ht hne
  known_lt p c hknown := by
    rcases hknown with hknown | ⟨rfl, -⟩
    · exact hnum.lt_size (h.known_lt p c hknown)
    · exact hnum.lt_size (Array.getElem?_eq_some_iff.mp hq).1
  queue_lt p hp := by
    rw [hnum.queue_eq, List.mem_append, List.mem_singleton] at hp
    rcases hp with hp | rfl
    · exact hnum.lt_size (h.queue_lt p hp)
    · exact (Array.getElem?_eq_some_iff.mp hnum.found).1
  processed_lt p hp := by
    rw [hnum.processed_eq] at hp
    exact hnum.lt_size (h.processed_lt p hp)
  pending p hp := by
    rw [hnum.processed_eq, hnum.queue_eq, List.mem_append, List.mem_singleton]
    rcases hnum.lt_or_eq hp with hp | ⟨rfl, -⟩
    · rcases h.pending p hp with hp | hp
      · exact .inl hp
      · exact .inr (.inl hp)
    · exact .inr (.inr rfl)

end Push

end Invariant

/-- What adding the moves of a state on some symbols does: the state keeps its set, the processed
states stay, and the queue gets at most one state for each symbol. -/
structure Adds (n : Nfa) (known : Nat → Symbol → Prop) (q : Nat) (s : StateSet)
    (symbols : List Symbol) (b b' : Subsets) : Prop where
  invariant : b'.Invariant n fun p a => known p a ∨ (p = q ∧ a ∈ symbols)
  found : b'.found[q]? = some s
  processed_eq : b'.processed = b.processed
  length_le : b'.queue.length ≤ b.queue.length + symbols.length

theorem Invariant.congr {known' : Nat → Symbol → Prop} (h : b.Invariant n known)
    (hknown : ∀ q a, known q a ↔ known' q a) : b.Invariant n known' := by
  have : known = known' := by
    funext q a
    exact propext (hknown q a)
  rwa [← this]

theorem adds_addMove (h : b.Invariant n known) (hq : b.found[q]? = some s) (a : Symbol) :
    b.Adds n known q s [a] (addMove n q s b a) := by
  have hone (p : Nat) (c : Symbol) :
      known p c ∨ (p = q ∧ c = a) ↔ known p c ∨ (p = q ∧ c ∈ [a]) := by
    rw [List.mem_singleton]
  rw [addMove]
  by_cases hempty : (n.step s a).isEmpty = true
  · simp only [hempty, ↓reduceIte]
    exact ⟨(h.skip hq hempty).congr hone, hq, rfl, Nat.le_succ _⟩
  · rw [Bool.not_eq_true] at hempty
    simp only [hempty, Bool.false_eq_true, ↓reduceIte]
    have hnum := numbers_number h.numbered (n.step s a)
    refine ⟨(h.push hq hempty hnum).congr hone, hnum.found_of hq, hnum.processed_eq, ?_⟩
    rw [List.length_append, hnum.queue_eq]
    rfl

theorem adds_foldl (h : b.Invariant n known) (hq : b.found[q]? = some s) (symbols : List Symbol) :
    b.Adds n known q s symbols (symbols.foldl (addMove n q s) b) := by
  induction symbols generalizing b known with
  | nil => exact ⟨h.congr (by simp), hq, rfl, Nat.le_refl _⟩
  | cons a rest ih =>
    have hfirst := adds_addMove h hq a
    have hrest := ih hfirst.invariant hfirst.found
    refine ⟨hrest.invariant.congr ?_, hrest.found,
      hrest.processed_eq.trans hfirst.processed_eq, ?_⟩
    · intro p c
      rw [List.mem_singleton, List.mem_cons]
      tauto
    · have h₁ := hrest.length_le
      have h₂ := hfirst.length_le
      rw [List.length_singleton] at h₂
      rw [List.foldl_cons, List.length_cons]
      omega

/-! ### Steps -/

/-- The moves of the processed states are known, for all symbols. -/
def Known (symbols : List Symbol) (b : Subsets) (q : Nat) (a : Symbol) : Prop :=
  q ∈ b.processed ∧ a ∈ symbols

variable {symbols : List Symbol}

/-- A state that is processed is taken from the queue. -/
theorem Invariant.take {queue : List Nat} (h : b.Invariant n known)
    (hqueue : b.queue = q :: queue) :
    Invariant n known { b with queue, processed := b.processed.insert q } := by
  refine { h with queue_lt := ?_, processed_lt := ?_, pending := ?_ }
  · intro p hp
    exact h.queue_lt p (hqueue ▸ List.mem_cons_of_mem q hp)
  · intro p hp
    rw [Std.TreeSet.mem_insert, Std.LawfulEqCmp.compare_eq_iff_eq] at hp
    rcases hp with rfl | hp
    · exact h.queue_lt _ (hqueue ▸ List.mem_cons_self)
    · exact h.processed_lt p hp
  · intro p hp
    rw [Std.TreeSet.mem_insert, Std.LawfulEqCmp.compare_eq_iff_eq]
    have := h.pending p hp
    rw [hqueue, List.mem_cons] at this
    tauto

/-- A state in the queue whose moves are known is dropped. -/
theorem Invariant.dropProcessed {queue : List Nat} (h : b.Invariant n known)
    (hqueue : b.queue = q :: queue) (hq : q ∈ b.processed) :
    Invariant n known { b with queue } := by
  refine { h with queue_lt := ?_, pending := ?_ }
  · intro p hp
    exact h.queue_lt p (hqueue ▸ List.mem_cons_of_mem q hp)
  · intro p hp
    rcases h.pending p hp with hp | hp
    · exact .inl hp
    · rw [hqueue, List.mem_cons] at hp
      rcases hp with rfl | hp
      · exact .inl hq
      · exact .inr hp

theorem Invariant.size_processed_le (h : b.Invariant n known) :
    b.processed.size ≤ b.found.size := by
  have := Nfa.size_le_length fun q hq => List.mem_range.mpr (h.processed_lt q hq)
  rwa [List.length_range] at this

/-- A step of the construction: a state is skipped, or its moves are added. -/
theorem step_eq_some {b' : Subsets} (h : b.Invariant n known) (hstep : step n symbols b = some b') :
    ∃ q queue, b.queue = q :: queue ∧ ((q ∈ b.processed ∧ b' = { b with queue }) ∨
      (q ∉ b.processed ∧ ∃ s, b.found[q]? = some s ∧ b' =
        symbols.foldl (addMove n q s) { b with queue, processed := b.processed.insert q })) := by
  rw [step] at hstep
  cases hqueue : b.queue with
  | nil =>
    rw [hqueue] at hstep
    cases hstep
  | cons q queue =>
    refine ⟨q, queue, rfl, ?_⟩
    have hlt : q < b.found.size := h.queue_lt q (hqueue ▸ List.mem_cons_self)
    rw [hqueue] at hstep
    by_cases hq : q ∈ b.processed
    · simp only [Std.TreeSet.contains_iff_mem, hq, ↓reduceIte, Option.some_inj] at hstep
      exact .inl ⟨hq, hstep.symm⟩
    · simp only [Std.TreeSet.contains_iff_mem, hq, ↓reduceIte, Array.getElem?_eq_getElem hlt,
        Option.some_inj] at hstep
      exact .inr ⟨hq, _, Array.getElem?_eq_getElem hlt, hstep.symm⟩

/-- How many steps there can still be, if at most `limit` states can be found. -/
def budget (limit : Nat) (symbols : List Symbol) (b : Subsets) : Nat :=
  b.queue.length + (limit - b.processed.size) * symbols.length

/-- A step keeps the invariant and uses some of the budget. -/
theorem Invariant.step {b' : Subsets} (h : b.Invariant n (Known symbols b))
    (hstep : Subsets.step n symbols b = some b') :
    b'.Invariant n (Known symbols b') ∧
      ∀ limit, b.found.size ≤ limit → b'.budget limit symbols < b.budget limit symbols := by
  obtain ⟨q, queue, hqueue, ⟨hq, rfl⟩ | ⟨hq, s, hs, rfl⟩⟩ := step_eq_some h hstep
  · refine ⟨h.dropProcessed hqueue hq, fun limit _ => ?_⟩
    -- the queue is shorter by the state that is skipped
    simp only [budget, hqueue, List.length_cons]
    omega
  · have htake := h.take hqueue
    have hadds := adds_foldl htake hs symbols
    refine ⟨hadds.invariant.congr ?_, ?_⟩
    · intro p a
      rw [Known, Known, hadds.processed_eq, Std.TreeSet.mem_insert,
        Std.LawfulEqCmp.compare_eq_iff_eq]
      tauto
    -- the queue gets longer by a state for each symbol at most: one more processed state pays for it
    · intro limit hlimit
      have hsize : (b.processed.insert q).size = b.processed.size + 1 := by
        rw [Std.TreeSet.size_insert, if_neg (Std.TreeSet.contains_iff_mem.not.mpr hq)]
      have hle : (b.processed.insert q).size ≤ b.found.size := htake.size_processed_le
      have hlength : _ ≤ queue.length + symbols.length := hadds.length_le
      have hmul : (limit - b.processed.size) * symbols.length =
          (limit - (b.processed.size + 1)) * symbols.length + symbols.length := by
        rw [← Nat.succ_mul]
        congr 1
        omega
      rw [budget, budget, hadds.processed_eq, hqueue, List.length_cons, hsize, hmul]
      omega

/-! ### How many states there are -/

/-- The states of every set were found by a move, or are those at the start. -/
theorem Invariant.eq_start_or_step (h : b.Invariant n known) (hq : b.found[q]? = some s) :
    s = n.startStates ∨ ∃ t a, s = n.step t a ∧ s.isEmpty = false := by
  by_cases hzero : q = 0
  · subst hzero
    exact .inl (Option.some_inj.mp (hq.symm.trans h.start))
  · obtain ⟨p, -, a, hm⟩ := h.origin q (Array.getElem?_eq_some_iff.mp hq).1 hzero
    obtain ⟨p', r, t, hm', -, -, hne, hr⟩ := h.sound _ hm
    obtain rfl : q = r := by
      have : (q : Int) = r := congrArg Move.target hm'
      omega
    obtain rfl := Option.some_inj.mp (hq.symm.trans hr)
    exact .inr ⟨t, a, rfl, hne⟩

/-- Two sets that were found are equal if they have the same states in them. Something else than a
state can be in a set only if it is the start, and then no other set is found. -/
theorem Invariant.mem_of_mem (hn : n.WellFormed) (h : b.Invariant n known) {t : StateSet} {r : Nat}
    (hs : b.found[q]? = some s) (ht : b.found[r]? = some t)
    (hstates : ∀ x, n.IsAllocated x → (x ∈ s ↔ x ∈ t)) {x : Int} (hx : x ∈ s) : x ∈ t := by
  by_cases halloc : n.IsAllocated x
  · exact (hstates x halloc).mp hx
  · rcases h.eq_start_or_step hs with rfl | ⟨u, a, rfl, -⟩
    · rcases hn.isAllocated_of_mem_startStates hx with rfl | ⟨-, hx⟩
      -- the start is no state, so no edge leaves it and its set has nothing else in it
      · rcases h.eq_start_or_step ht with rfl | ⟨u, a, rfl, hne⟩
        · exact hx
        · obtain ⟨y, hy⟩ := SortedSet.isEmpty_eq_false_iff.mp hne
          have hyalloc := hn.isAllocated_of_mem_step hy
          rcases hn.isAllocated_of_mem_startStates ((hstates y hyalloc).mpr hy) with rfl | ⟨hx, -⟩
          · exact absurd hyalloc halloc
          · exact absurd hx halloc
      · exact absurd hx halloc
    · exact absurd (hn.isAllocated_of_mem_step hx) halloc

/-- The numbers of the states in a set. -/
def members (n : Nfa) (s : StateSet) : Finset Nat :=
  (Finset.range n.size).filter fun i => (i : Int) ∈ s

theorem toNat_mem_members {x : Int} (hx : n.IsAllocated x) :
    x.toNat ∈ members n s ↔ x ∈ s := by
  have hlt : x.toNat < n.size := by
    rw [Nfa.IsAllocated] at hx
    omega
  rw [members, Finset.mem_filter, Finset.mem_range, Int.toNat_of_nonneg hx.1]
  exact and_iff_right hlt

/-- States that stand for sets with the same states in them are equal. -/
theorem Invariant.eq_of_members_eq (hn : n.WellFormed) (h : b.Invariant n known) {t : StateSet}
    {r : Nat} (hs : b.found[q]? = some s) (ht : b.found[r]? = some t)
    (hst : members n s = members n t) : q = r := by
  have hstates (x : Int) (hx : n.IsAllocated x) : x ∈ s ↔ x ∈ t := by
    rw [← toNat_mem_members hx, hst, toNat_mem_members hx]
  have hset : s = t := SortedSet.ext fun x =>
    ⟨h.mem_of_mem hn hs ht hstates, h.mem_of_mem hn ht hs fun x hx => (hstates x hx).symm⟩
  rw [← h.numbered, hset] at hs
  rw [← h.numbered] at ht
  exact Option.some_inj.mp (hs.symm.trans ht)

/-- There are at most as many states as there are sets of states to choose from. -/
theorem Invariant.size_found_le_card (hn : n.WellFormed) (h : b.Invariant n known)
    {family : Finset (Finset Nat)}
    (hfamily : ∀ (q : Nat) (s : StateSet), b.found[q]? = some s → members n s ∈ family) :
    b.found.size ≤ family.card := by
  have hmaps (q : Fin b.found.size) : members n b.found[q.1] ∈ family :=
    hfamily q.1 _ (Array.getElem?_eq_getElem q.2)
  have hinj : Function.Injective fun q : Fin b.found.size => members n b.found[q.1] := by
    intro q r hqr
    exact Fin.ext (h.eq_of_members_eq hn (Array.getElem?_eq_getElem q.2)
      (Array.getElem?_eq_getElem r.2) hqr)
  have hcard := Finset.card_le_card_of_injOn (s := Finset.univ) _ (fun q _ => hmaps q) hinj.injOn
  rwa [Finset.card_univ, Fintype.card_fin] at hcard

theorem members_mem_powerset (n : Nfa) (s : StateSet) :
    members n s ∈ (Finset.range n.size).powerset :=
  Finset.mem_powerset.mpr (Finset.filter_subset _ _)

/-- There are at most as many states as there are sets of states. -/
theorem Invariant.size_found_le (hn : n.WellFormed) (h : b.Invariant n known) :
    b.found.size ≤ 2 ^ n.size := by
  have hcard := h.size_found_le_card hn fun _ s _ => members_mem_powerset n s
  rwa [Finset.card_powerset, Finset.card_range] at hcard

/-! ### The whole construction -/

theorem queue_eq_nil_of_step (h : step n symbols b = none) : b.queue = [] := by
  rw [step] at h
  cases hqueue : b.queue with
  | nil => rfl
  | cons q queue =>
    rw [hqueue] at h
    dsimp only at h
    split at h
    · cases h
    · split at h <;> cases h

/-- The invariant holds after any number of steps. -/
theorem Invariant.run (h : b.Invariant n (Known symbols b)) (fuel : Nat) :
    (run n symbols fuel b).Invariant n (Known symbols (run n symbols fuel b)) := by
  induction fuel generalizing b with
  | zero => exact h
  | succ fuel ih =>
    rw [Subsets.run]
    cases hstep : Subsets.step n symbols b with
    | none => exact h
    | some b' => exact ih (h.step hstep).1

/-- Enough steps empty the queue. -/
theorem Invariant.queue_run (hn : n.WellFormed) (h : b.Invariant n (Known symbols b)) (fuel : Nat)
    (hfuel : b.budget (2 ^ n.size) symbols < fuel) : (Subsets.run n symbols fuel b).queue = [] := by
  induction fuel generalizing b with
  | zero => omega
  | succ fuel ih =>
    rw [Subsets.run]
    cases hstep : Subsets.step n symbols b with
    | none => exact queue_eq_nil_of_step hstep
    | some b' =>
      obtain ⟨h', hbudget⟩ := h.step hstep
      have := hbudget _ (h.size_found_le hn)
      exact ih h' (by omega)

theorem Invariant.initial_known (n : Nfa) (symbols : List Symbol) :
    (Subsets.initial n).Invariant n (Known symbols (Subsets.initial n)) :=
  (Invariant.initial n).congr fun q a => by simp [Known, Subsets.initial]

/-- The construction ends with an empty queue. -/
theorem run_complete (hn : n.WellFormed) (symbols : List Symbol) :
    (complete n symbols).Invariant n (Known symbols (complete n symbols)) ∧
      (complete n symbols).queue = [] :=
  ⟨(Invariant.initial_known n symbols).run _,
    (Invariant.initial_known n symbols).queue_run hn (2 ^ n.size * symbols.length + 2)
      (by simp [budget, initial]; omega)⟩

/-- When the construction ends, all moves of all states that were found are known. -/
theorem invariant_complete (hn : n.WellFormed) (symbols : List Symbol) :
    (complete n symbols).Invariant n
      fun q a => q < (complete n symbols).found.size ∧ a ∈ symbols := by
  obtain ⟨h, hqueue⟩ := run_complete hn symbols
  refine h.congr fun q a => and_congr_left' ⟨h.processed_lt q, fun hq => ?_⟩
  refine (h.pending q hq).resolve_right ?_
  rw [hqueue]
  exact List.not_mem_nil

end Subsets

end RegexAutomata.Dfa
