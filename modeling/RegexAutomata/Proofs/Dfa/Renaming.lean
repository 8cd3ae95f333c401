/-
The subset construction depends on what an automaton is, and not on how it was built or how its
states are numbered.

Two constructions are run side by side. As long as the sets that they find are paired one to one,
each of them takes the same steps: it finds as many sets, gives them the same numbers and adds the
same moves.

* `Pairing`, `Subsets.Mirrors` — what the runs of two automata keep, and so do the constructions;
* `Subsets.Mirrors.number`, `Subsets.Mirrors.step`, `Subsets.mirrors_complete` — one set, one step,
  and the whole construction;
* `Embeds.pairing` — a copy of an automaton within another one pairs each set with its image, and so
  does a renaming of all states (`Renames.pairing`);
* `ofNfa_renames` — equal edges give equal results, and renamed states give an automaton with the
  same states and moves.
-/
import RegexAutomata.Proofs.Dfa.Completion
import RegexAutomata.Proofs.Dfa.Determinized
import RegexAutomata.Proofs.Nfa.SameEdges
import Mathlib.Data.Set.Function

namespace RegexAutomata

namespace Dfa

/-- A relation between the sets of states of two automata that pairs them one to one, and that runs
keep. -/
structure Pairing (n m : Nfa) (R : StateSet → StateSet → Prop) : Prop where
  size_eq : n.size = m.size
  start : R n.startStates m.startStates
  step : ∀ {s t}, R s t → ∀ a, R (n.step s a) (m.step t a)
  isEmpty_eq : ∀ {s t}, R s t → s.isEmpty = t.isEmpty
  finish_iff : ∀ {s t}, R s t → (n.finish ∈ s ↔ m.finish ∈ t)
  eq_iff : ∀ {s s' t t'}, R s t → R s' t' → (s = s' ↔ t = t')

variable {n m : Nfa} {R : StateSet → StateSet → Prop}

namespace Subsets

/-- Two constructions stand at the same point: they have found paired sets and the same moves. -/
structure Mirrors (R : StateSet → StateSet → Prop) (b c : Subsets) : Prop where
  numbered_left : b.Numbered
  numbered_right : c.Numbered
  size_eq : b.found.size = c.found.size
  found : ∀ {q : Nat} {s t : StateSet}, b.found[q]? = some s → c.found[q]? = some t → R s t
  queue_eq : b.queue = c.queue
  processed_eq : b.processed = c.processed
  moves_eq : b.moves = c.moves

variable {b c : Subsets} {s t : StateSet}

namespace Mirrors

/-- The set that one construction has found in the place of a set of the other. -/
theorem exists_found (h : Mirrors R b c) {q : Nat} (hs : b.found[q]? = some s) :
    ∃ t, c.found[q]? = some t ∧ R s t := by
  have hlt : q < c.found.size := h.size_eq ▸ (Array.getElem?_eq_some_iff.mp hs).1
  have ht := Array.getElem?_eq_getElem hlt
  exact ⟨_, ht, h.found hs ht⟩

theorem exists_found_right (h : Mirrors R b c) {q : Nat} (ht : c.found[q]? = some t) :
    ∃ s, b.found[q]? = some s ∧ R s t := by
  have hlt : q < b.found.size := h.size_eq ▸ (Array.getElem?_eq_some_iff.mp ht).1
  have hs := Array.getElem?_eq_getElem hlt
  exact ⟨_, hs, h.found hs ht⟩

/-- Paired sets have the same number, or neither has one. -/
theorem numbers_eq (hR : Pairing n m R) (h : Mirrors R b c) (hst : R s t) :
    b.numbers[s.toList]? = c.numbers[t.toList]? := by
  ext q
  rw [h.numbered_left, h.numbered_right]
  constructor
  · intro hs
    obtain ⟨t', ht', hst'⟩ := h.exists_found hs
    rwa [(hR.eq_iff hst hst').mp rfl]
  · intro ht
    obtain ⟨s', hs', hst'⟩ := h.exists_found_right ht
    rwa [(hR.eq_iff hst hst').mpr rfl]

/-- Paired sets get the same number. -/
theorem number (hR : Pairing n m R) (h : Mirrors R b c) (hst : R s t) :
    (b.number s).1 = (c.number t).1 ∧ Mirrors R (b.number s).2 (c.number t).2 := by
  have hnumbers := h.numbers_eq hR hst
  rw [Subsets.number, Subsets.number, ← hnumbers]
  cases hs : b.numbers[s.toList]? with
  | some q => exact ⟨rfl, h⟩
  | none =>
    refine ⟨h.size_eq, h.numbered_left.insert hs, h.numbered_right.insert (hnumbers ▸ hs), ?_, ?_,
      h.queue_eq, h.processed_eq, h.moves_eq⟩
    · simp [h.size_eq]
    · intro q s' t' hs' ht'
      have hs' : (b.found.push s)[q]? = some s' := hs'
      have ht' : (c.found.push t)[q]? = some t' := ht'
      rw [Array.getElem?_push] at hs' ht'
      by_cases hq : q = b.found.size
      · rw [if_pos hq, Option.some_inj] at hs'
        rw [if_pos (hq.trans h.size_eq), Option.some_inj] at ht'
        rwa [← hs', ← ht']
      · rw [if_neg hq] at hs'
        rw [if_neg (h.size_eq ▸ hq)] at ht'
        exact h.found hs' ht'

theorem addMove (hR : Pairing n m R) (h : Mirrors R b c) (hst : R s t) (q : Nat) (a : Symbol) :
    Mirrors R (Subsets.addMove n q s b a) (Subsets.addMove m q t c a) := by
  have hstep := hR.step hst a
  obtain ⟨hnumber, hmirrors⟩ := h.number hR hstep
  rw [Subsets.addMove, Subsets.addMove, hR.isEmpty_eq hstep]
  by_cases hempty : (m.step t a).isEmpty = true
  · simp only [hempty, ↓reduceIte]
    exact h
  · simp only [hempty]
    refine { hmirrors with queue_eq := ?_, moves_eq := ?_ }
    · show _ ++ [_] = _ ++ [_]
      rw [hmirrors.queue_eq, hnumber]
    · show Array.push _ _ = Array.push _ _
      rw [hmirrors.moves_eq, hnumber]

theorem foldl_addMove (hR : Pairing n m R) (h : Mirrors R b c) (hst : R s t) (q : Nat)
    (symbols : List Symbol) :
    Mirrors R (symbols.foldl (Subsets.addMove n q s) b)
      (symbols.foldl (Subsets.addMove m q t) c) := by
  induction symbols generalizing b c with
  | nil => exact h
  | cons a rest ih => exact ih (h.addMove hR hst q a)

/-- Both constructions take the same step, or neither takes one. -/
theorem step (hR : Pairing n m R) (h : Mirrors R b c) (symbols : List Symbol) :
    Option.Rel (Mirrors R) (Subsets.step n symbols b) (Subsets.step m symbols c) := by
  rw [Subsets.step, Subsets.step, ← h.queue_eq]
  cases hqueue : b.queue with
  | nil => exact .none
  | cons q queue =>
    simp only [← h.processed_eq]
    by_cases hq : b.processed.contains q = true
    · simp only [hq, ↓reduceIte]
      exact .some { h with queue_eq := rfl, processed_eq := rfl }
    · simp only [hq]
      have hnext : Mirrors R { b with queue, processed := b.processed.insert q }
          { c with queue, processed := b.processed.insert q } :=
        { h with queue_eq := rfl, processed_eq := rfl }
      cases hs : b.found[q]? with
      | none =>
        have ht : c.found[q]? = none := by
          rw [Array.getElem?_eq_none_iff] at hs ⊢
          rwa [← h.size_eq]
        simp only [ht]
        exact .some hnext
      | some s =>
        obtain ⟨t, ht, hst⟩ := h.exists_found hs
        simp only [ht]
        exact .some (hnext.foldl_addMove hR hst q symbols)

theorem run (hR : Pairing n m R) (h : Mirrors R b c) (symbols : List Symbol) (fuel : Nat) :
    Mirrors R (Subsets.run n symbols fuel b) (Subsets.run m symbols fuel c) := by
  induction fuel generalizing b c with
  | zero => exact h
  | succ fuel ih =>
    rw [Subsets.run, Subsets.run]
    have hstep := h.step hR symbols
    generalize Subsets.step n symbols b = b?, Subsets.step m symbols c = c? at hstep ⊢
    cases hstep with
    | none => exact h
    | some hmirrors => exact ih hmirrors

end Mirrors

theorem mirrors_initial (hR : Pairing n m R) : Mirrors R (initial n) (initial m) where
  numbered_left := (Invariant.initial n).numbered
  numbered_right := (Invariant.initial m).numbered
  size_eq := rfl
  found {q s t} hs ht := by
    cases q with
    | zero =>
      obtain rfl := Option.some_inj.mp hs
      obtain rfl := Option.some_inj.mp ht
      exact hR.start
    | succ q => exact absurd (Array.getElem?_eq_some_iff.mp hs).1 (by simp [initial])
  queue_eq := rfl
  processed_eq := rfl
  moves_eq := rfl

theorem mirrors_complete (hR : Pairing n m R) (symbols : List Symbol) :
    Mirrors R (complete n symbols) (complete m symbols) := by
  rw [complete, complete, hR.size_eq]
  exact (mirrors_initial hR).run hR symbols _

end Subsets

/-! ### The automata -/

theorem Pairing.states_eq (hR : Pairing n m R) (alphabet : Alphabet) :
    (ofNfa n alphabet).states = (ofNfa m alphabet).states :=
  congrArg Nat.cast (Subsets.mirrors_complete hR alphabet.toList).size_eq

theorem Pairing.moves_eq (hR : Pairing n m R) (alphabet : Alphabet) :
    (ofNfa n alphabet).moves = (ofNfa m alphabet).moves :=
  congrArg Array.toList (Subsets.mirrors_complete hR alphabet.toList).moves_eq

/-- The same state of both automata stands for paired sets. -/
theorem Pairing.exists_subset? (hR : Pairing n m R) {alphabet : Alphabet} {q : Int} {s : StateSet}
    (hs : (ofNfa n alphabet).subset? q = some s) :
    ∃ t, (ofNfa m alphabet).subset? q = some t ∧ R s t := by
  obtain ⟨i, rfl, hi⟩ := subset?_ofNfa_eq_some_iff.mp hs
  obtain ⟨t, ht, hst⟩ := (Subsets.mirrors_complete hR alphabet.toList).exists_found hi
  exact ⟨t, subset?_ofNfa_eq_some_iff.mpr ⟨i, rfl, ht⟩, hst⟩

theorem Pairing.accepting_eq (hR : Pairing n m R) (alphabet : Alphabet) :
    (ofNfa n alphabet).accepting = (ofNfa m alphabet).accepting := by
  refine SortedSet.ext fun q => ?_
  rw [accepting_ofNfa_iff, accepting_ofNfa_iff]
  constructor
  · rintro ⟨s, hs, hfinish⟩
    obtain ⟨t, ht, hst⟩ := hR.exists_subset? hs
    exact ⟨t, ht, (hR.finish_iff hst).mp hfinish⟩
  · rintro ⟨t, ht, hfinish⟩
    obtain ⟨i, rfl, hi⟩ := subset?_ofNfa_eq_some_iff.mp ht
    obtain ⟨s, hs, hst⟩ := (Subsets.mirrors_complete hR alphabet.toList).exists_found_right hi
    exact ⟨s, subset?_ofNfa_eq_some_iff.mpr ⟨i, rfl, hs⟩, (hR.finish_iff hst).mpr hfinish⟩

/-- Automata with the same final state whose runs go through equal sets have the same subset
automaton. -/
theorem ofNfa_eq_of_forall_eq (hR : Pairing n m R) (heq : ∀ {s t}, R s t → s = t)
    (hfinish : n.finish = m.finish) (alphabet : Alphabet) :
    ofNfa n alphabet = ofNfa m alphabet := by
  have hmirrors := Subsets.mirrors_complete hR alphabet.toList
  have hfound : (Subsets.complete n alphabet.toList).found
      = (Subsets.complete m alphabet.toList).found := by
    refine Array.ext hmirrors.size_eq ?_
    intro i hi hi'
    exact heq (hmirrors.found (Array.getElem?_eq_getElem hi) (Array.getElem?_eq_getElem hi'))
  rw [ofNfa, ofNfa, hfound, hmirrors.moves_eq, hfinish]

/-- Automata whose runs are the same have the same subset automaton. -/
theorem ofNfa_eq_of_pairing (hR : Pairing n m Eq) (hfinish : n.finish = m.finish)
    (alphabet : Alphabet) : ofNfa n alphabet = ofNfa m alphabet :=
  ofNfa_eq_of_forall_eq hR id hfinish alphabet

end Dfa

namespace Nfa

open Relation (ReflTransGen)

theorem SameEdges.pairing {n m : Nfa} (h : n.SameEdges m) (hn : n.WellFormed)
    (hm : m.WellFormed) : Dfa.Pairing n m Eq where
  size_eq := h.size_eq
  start := h.startStates_eq hn hm
  step hst a := by rw [hst, h.step_eq hn hm]
  isEmpty_eq hst := by rw [hst]
  finish_iff hst := by rw [hst, h.finish_eq]
  eq_iff hst hst' := by rw [hst, hst']

/-! ### Copies of an automaton -/

/-- A function carries the states of an automaton over to another one, together with their edges:
the other automaton contains a copy of the first, starts in it and never leaves it. -/
structure Embeds (f : Int → Int) (n m : Nfa) : Prop where
  injOn : Set.InjOn f {q | n.IsAllocated q}
  start : n.IsAllocated n.start
  start_eq : f n.start = m.start
  finish_iff : ∀ q, n.IsAllocated q → (f q = m.finish ↔ q = n.finish)
  /-- the edges from a state of the copy are the edges of the state, carried over -/
  edge_iff : ∀ p a y, n.IsAllocated p → (m.Edge (f p) a y ↔ ∃ q, n.Edge p a q ∧ f q = y)

/-- A set of states of an automaton, renamed. -/
structure Renamed (f : Int → Int) (n : Nfa) (s t : StateSet) : Prop where
  isAllocated : ∀ x ∈ s, n.IsAllocated x
  mem_iff : ∀ y, y ∈ t ↔ ∃ x ∈ s, f x = y

theorem Renamed.isEmpty_eq {f : Int → Int} {n : Nfa} {s t : StateSet} (h : Renamed f n s t) :
    s.isEmpty = t.isEmpty := by
  have hfalse : s.isEmpty = false ↔ t.isEmpty = false := by
    rw [SortedSet.isEmpty_eq_false_iff, SortedSet.isEmpty_eq_false_iff]
    constructor
    · rintro ⟨x, hx⟩
      exact ⟨f x, (h.mem_iff _).mpr ⟨x, hx, rfl⟩⟩
    · rintro ⟨y, hy⟩
      obtain ⟨x, hx, -⟩ := (h.mem_iff y).mp hy
      exact ⟨x, hx⟩
  cases hs : s.isEmpty
  · exact (hfalse.mp hs).symm
  · by_contra ht
    rw [hfalse.mpr (Bool.eq_false_of_not_eq_true (Ne.symm ht))] at hs
    exact Bool.false_ne_true hs

namespace Embeds

variable {f : Int → Int} {n m : Nfa} {p q y : Int} {s s' t t' : StateSet}

/-- What silent edges lead to from a state of the copy lies in the copy. -/
theorem reach_map_iff (h : Embeds f n m) (hn : n.WellFormed) (hp : n.IsAllocated p) :
    ReflTransGen m.Silent (f p) y ↔ ∃ q, ReflTransGen n.Silent p q ∧ f q = y := by
  constructor
  · intro hy
    induction hy with
    | refl => exact ⟨p, .refl, rfl⟩
    | tail _ hedge ih =>
      obtain ⟨q, hq, rfl⟩ := ih
      obtain ⟨r, hqr, rfl⟩ := (h.edge_iff _ _ _ (hn.isAllocated_of_reach hp hq)).mp hedge
      exact ⟨r, hq.tail hqr, rfl⟩
  · rintro ⟨q, hq, rfl⟩
    induction hq with
    | refl => exact .refl
    | tail hq hqr ih =>
      exact ih.tail ((h.edge_iff _ _ _ (hn.isAllocated_of_reach hp hq)).mpr ⟨_, hqr, rfl⟩)

theorem renamed_startStates (h : Embeds f n m) (hn : n.WellFormed) (hm : m.WellFormed) :
    Renamed f n n.startStates m.startStates where
  isAllocated x hx := hn.isAllocated_of_reach h.start ((mem_startStates hn x).mp hx)
  mem_iff y := by
    simp only [mem_startStates hn, mem_startStates hm, ← h.start_eq]
    exact h.reach_map_iff hn h.start

theorem renamed_step (h : Embeds f n m) (hn : n.WellFormed) (hm : m.WellFormed)
    (hst : Renamed f n s t) (a : Symbol) : Renamed f n (n.step s a) (m.step t a) where
  isAllocated x hx := hn.isAllocated_of_mem_step hx
  mem_iff y := by
    simp only [mem_step hn, mem_step hm]
    constructor
    · rintro ⟨p', hp', q', hedge, hy⟩
      obtain ⟨p, hp, rfl⟩ := (hst.mem_iff p').mp hp'
      obtain ⟨q, he, rfl⟩ := (h.edge_iff p a q' (hst.isAllocated p hp)).mp hedge
      obtain ⟨x, hx, rfl⟩ := (h.reach_map_iff hn (hn.isAllocated he)).mp hy
      exact ⟨x, ⟨p, hp, q, he, hx⟩, rfl⟩
    · rintro ⟨x, ⟨p, hp, q, he, hx⟩, rfl⟩
      exact ⟨f p, (hst.mem_iff _).mpr ⟨p, hp, rfl⟩, f q,
        (h.edge_iff p a _ (hst.isAllocated p hp)).mpr ⟨q, he, rfl⟩,
        (h.reach_map_iff hn (hn.isAllocated he)).mpr ⟨x, hx, rfl⟩⟩

/-- A state is in a set if its new name is in the renamed set. -/
theorem mem_map_iff (h : Embeds f n m) (hst : Renamed f n s t) (hq : n.IsAllocated q) :
    f q ∈ t ↔ q ∈ s := by
  rw [hst.mem_iff]
  constructor
  · rintro ⟨x, hx, hsame⟩
    rwa [← h.injOn (hst.isAllocated x hx) hq hsame]
  · exact fun hs => ⟨q, hs, rfl⟩

theorem finish_mem_iff (h : Embeds f n m) (hst : Renamed f n s t) :
    n.finish ∈ s ↔ m.finish ∈ t := by
  rw [hst.mem_iff]
  constructor
  · intro hs
    exact ⟨n.finish, hs, (h.finish_iff _ (hst.isAllocated _ hs)).mpr rfl⟩
  · rintro ⟨x, hx, hfinish⟩
    rwa [← (h.finish_iff x (hst.isAllocated x hx)).mp hfinish]

/-- Sets are equal exactly if they are equal after renaming. -/
theorem eq_iff (h : Embeds f n m) (hst : Renamed f n s t) (hst' : Renamed f n s' t') :
    s = s' ↔ t = t' := by
  constructor
  · rintro rfl
    exact SortedSet.ext fun y => (hst.mem_iff y).trans (hst'.mem_iff y).symm
  · rintro rfl
    refine SortedSet.ext fun x => ⟨fun hx => ?_, fun hx => ?_⟩
    · have hmem := (h.mem_map_iff hst (hst.isAllocated x hx)).mpr hx
      exact (h.mem_map_iff hst' (hst.isAllocated x hx)).mp hmem
    · have hmem := (h.mem_map_iff hst' (hst'.isAllocated x hx)).mpr hx
      exact (h.mem_map_iff hst (hst'.isAllocated x hx)).mp hmem

/-- The constructions for an automaton and for one that contains a copy of it find the same sets, up
to their names. States without edges make both automata equally large. -/
theorem pairing (h : Embeds f n m) (hn : n.WellFormed) (hm : m.WellFormed) {j k : Nat}
    (hsize : n.size + j = m.size + k) : Dfa.Pairing (n.pad j) (m.pad k) (Renamed f n) where
  size_eq := by rw [size_pad, size_pad, hsize]
  start := by
    rw [startStates_pad hn, startStates_pad hm]
    exact h.renamed_startStates hn hm
  step hst a := by
    rw [step_pad hn, step_pad hm]
    exact h.renamed_step hn hm hst a
  isEmpty_eq := Renamed.isEmpty_eq
  finish_iff hst := by
    rw [finish_pad, finish_pad]
    exact h.finish_mem_iff hst
  eq_iff := h.eq_iff

theorem renamed_stepAll (h : Embeds f n m) (hn : n.WellFormed) (hm : m.WellFormed)
    (hst : Renamed f n s t) (w : Text) : Renamed f n (n.stepAll s w) (m.stepAll t w) := by
  induction w generalizing s t with
  | nil => exact hst
  | cons c w ih => exact ih (h.renamed_step hn hm hst [c])

/-- The copy accepts the same texts. -/
theorem accepts_eq (h : Embeds f n m) (hn : n.WellFormed) (hm : m.WellFormed) (w : Text) :
    m.accepts w = n.accepts w := by
  have hst := h.renamed_stepAll hn hm (h.renamed_startStates hn hm) w
  rw [Bool.eq_iff_iff, accepts_iff_mem_statesAfter, accepts_iff_mem_statesAfter]
  exact (h.finish_mem_iff hst).symm

/-- The copy has a subset automaton with the same states and moves, where each state stands for the
renamed set. -/
theorem ofNfa (h : Embeds f n m) (hn : n.WellFormed) (hm : m.WellFormed) (symbols : Alphabet) :
    (Dfa.ofNfa m symbols).states = (Dfa.ofNfa n symbols).states ∧
      (Dfa.ofNfa m symbols).moves = (Dfa.ofNfa n symbols).moves ∧
      (Dfa.ofNfa m symbols).accepting = (Dfa.ofNfa n symbols).accepting ∧
      ∀ q s, (Dfa.ofNfa n symbols).subset? q = some s →
        ∃ t, (Dfa.ofNfa m symbols).subset? q = some t ∧ ∀ y, y ∈ t ↔ ∃ x ∈ s, f x = y := by
  have hR := h.pairing hn hm (j := m.size) (k := n.size) (Nat.add_comm _ _)
  rw [← Dfa.ofNfa_pad hn m.size, ← Dfa.ofNfa_pad hm n.size]
  refine ⟨(hR.states_eq symbols).symm, (hR.moves_eq symbols).symm,
    (hR.accepting_eq symbols).symm, ?_⟩
  intro q s hs
  obtain ⟨t, ht, hst⟩ := hR.exists_subset? hs
  exact ⟨t, ht, hst.mem_iff⟩

/-- An automaton that contains another one as it is has the same subset automaton. -/
theorem ofNfa_eq (h : Embeds id n m) (hn : n.WellFormed) (hm : m.WellFormed)
    (hfinish : m.finish = n.finish) (symbols : Alphabet) :
    Dfa.ofNfa m symbols = Dfa.ofNfa n symbols := by
  have hR := h.pairing hn hm (j := m.size) (k := n.size) (Nat.add_comm _ _)
  rw [← Dfa.ofNfa_pad hn m.size, ← Dfa.ofNfa_pad hm n.size]
  refine (Dfa.ofNfa_eq_of_forall_eq hR (fun {s t} hst => ?_) ?_ symbols).symm
  · refine SortedSet.ext fun y => ?_
    rw [hst.mem_iff]
    simp
  · rw [finish_pad, finish_pad, hfinish]

end Embeds

/-! ### Renaming states -/

/-- A function renames the states of an automaton to those of another one. The start and the final
state are states. -/
structure Renames (f : Int → Int) (n m : Nfa) : Prop where
  bijOn : Set.BijOn f {q | n.IsAllocated q} {q | m.IsAllocated q}
  start : n.IsAllocated n.start
  finish : n.IsAllocated n.finish
  start_eq : f n.start = m.start
  finish_eq : f n.finish = m.finish
  edge_iff : ∀ p a q, n.IsAllocated p → n.IsAllocated q → (n.Edge p a q ↔ m.Edge (f p) a (f q))

theorem card_stateList (n : Nfa) : n.stateList.toFinset.card = n.size := by
  have hnodup : n.stateList.Nodup := List.nodup_range.map fun _ _ => Int.ofNat.inj
  rw [List.toFinset_card_of_nodup hnodup, stateList, List.length_map, List.length_range]

namespace Renames

variable {f : Int → Int} {n m : Nfa}

theorem size_eq (h : Renames f n m) : n.size = m.size := by
  have himage : n.stateList.toFinset.image f = m.stateList.toFinset := by
    ext y
    simp only [Finset.mem_image, List.mem_toFinset, mem_stateList]
    constructor
    · rintro ⟨x, hx, rfl⟩
      exact h.bijOn.mapsTo hx
    · exact fun hy => h.bijOn.surjOn hy
  have hinj : Set.InjOn f n.stateList.toFinset := by
    intro x hx x' hx' hsame
    simp only [Finset.mem_coe, List.mem_toFinset, mem_stateList] at hx hx'
    exact h.bijOn.injOn hx hx' hsame
  rw [← card_stateList n, ← card_stateList m, ← himage, Finset.card_image_of_injOn hinj]

/-- Renaming carries the whole automaton over. -/
theorem embeds (h : Renames f n m) (hn : n.WellFormed) (hm : m.WellFormed) : Embeds f n m where
  injOn := h.bijOn.injOn
  start := h.start
  start_eq := h.start_eq
  finish_iff q hq := by
    rw [← h.finish_eq]
    exact ⟨fun hsame => h.bijOn.injOn hq h.finish hsame, fun hsame => by rw [hsame]⟩
  edge_iff p a y hp := by
    constructor
    · intro he
      obtain ⟨q, hq, rfl⟩ := h.bijOn.surjOn (hm.isAllocated he)
      exact ⟨q, (h.edge_iff p a q hp hq).mpr he, rfl⟩
    · rintro ⟨q, he, rfl⟩
      exact (h.edge_iff p a q hp (hn.isAllocated he)).mp he

theorem pairing (h : Renames f n m) (hn : n.WellFormed) (hm : m.WellFormed) :
    Dfa.Pairing n m (Renamed f n) :=
  (h.embeds hn hm).pairing hn hm (j := 0) (k := 0) h.size_eq

end Renames

end Nfa

open Nfa (Operation) in
/-- Two automata that operations made with the same edges, added in whatever order and with whatever
questions in between, are written in the same way, accept the same texts and have the same subset
automata. If the states have other names, the subset automata have the same states, moves and
accepting states, and each state stands for the renamed set. -/
theorem ofNfa_renames (alphabet : Alphabet) (ops ops' : List Operation) :
    let n := Operation.after (.empty alphabet) ops
    let m := Operation.after (.empty alphabet) ops'
    (n.SameEdges m → n.toDictionary = m.toDictionary ∧ n.drawing.render = m.drawing.render ∧
      (∀ w, n.accepts w = m.accepts w) ∧ ∀ symbols, Dfa.ofNfa n symbols = Dfa.ofNfa m symbols) ∧
    ∀ f, Nfa.Renames f n m → ∀ symbols,
      (Dfa.ofNfa m symbols).states = (Dfa.ofNfa n symbols).states ∧
      (Dfa.ofNfa m symbols).moves = (Dfa.ofNfa n symbols).moves ∧
      (Dfa.ofNfa m symbols).accepting = (Dfa.ofNfa n symbols).accepting ∧
      ∀ q s, (Dfa.ofNfa n symbols).subset? q = some s →
        ∃ t, (Dfa.ofNfa m symbols).subset? q = some t ∧ ∀ y, y ∈ t ↔ ∃ x ∈ s, f x = y := by
  intro n m
  have hn : n.WellFormed := (Nfa.sound_after alphabet ops).wellFormed
  have hm : m.WellFormed := (Nfa.sound_after alphabet ops').wellFormed
  refine ⟨?_, ?_⟩
  · intro h
    have hdrawing : n.drawing = m.drawing :=
      h.drawing_eq (Nfa.tidy_after alphabet ops) (Nfa.tidy_after alphabet ops')
    refine ⟨?_, by rw [hdrawing], h.accepts_eq hn hm, ?_⟩
    · exact h.toDictionary_eq (Nfa.tidy_after alphabet ops) (Nfa.tidy_after alphabet ops')
    · exact Dfa.ofNfa_eq_of_pairing (h.pairing hn hm) h.finish_eq
  · intro f h symbols
    have hR := h.pairing hn hm
    refine ⟨(hR.states_eq symbols).symm, (hR.moves_eq symbols).symm,
      (hR.accepting_eq symbols).symm, ?_⟩
    intro q s hs
    obtain ⟨t, ht, hst⟩ := hR.exists_subset? hs
    exact ⟨t, ht, hst.mem_iff⟩

open Nfa (Operation) in
open Nfa.Operation Nfa.Change Nfa.Question in
/-- Two states with an edge each way, made twice: the second time with the states exchanged, the
edges added in the other order and a question in between. -/
theorem ofNfa_renames_exchanged :
    let alphabet := Alphabet.ofTexts ["ab"]
    let n := Operation.after (.empty alphabet) [change newState, change newState,
      change (addTransition 0 "a" 1), change (addTransition 1 "b" 0), change (setFinish 1)]
    let m := Operation.after (.empty alphabet) [change newState, change newState,
      change (addTransition 0 "b" 1), ask startStates, change (addTransition 1 "a" 0),
      change (setStart 1)]
    Nfa.Renames (1 - ·) n m ∧ (Dfa.ofNfa m alphabet).moves = (Dfa.ofNfa n alphabet).moves := by
  intro alphabet n m
  have hn : n.nodes = #[⟨[("a", [1])], true⟩, ⟨[("b", [0])], true⟩] := by decide +kernel
  have hm : m.nodes = #[⟨[("b", [1])], true⟩, ⟨[("a", [0])], true⟩] := by decide +kernel
  have hends : (n.start = 0 ∧ n.finish = 1) ∧ m.start = 1 ∧ m.finish = 0 := by
    decide +kernel
  have hallocated (q : Int) : (n.IsAllocated q ↔ q = 0 ∨ q = 1) ∧
      (m.IsAllocated q ↔ q = 0 ∨ q = 1) := by
    simp only [Nfa.IsAllocated, Nfa.size, hn, hm]
    constructor <;> (simp; omega)
  have h : Nfa.Renames (1 - ·) n m := by
    refine ⟨⟨?_, ?_, ?_⟩, ?_, ?_, ?_, ?_, ?_⟩
    · intro q hq
      simp only [Set.mem_ofPred_eq, hallocated] at hq ⊢
      omega
    · intro q _ r _ hsame
      simpa using hsame
    · intro q hq
      refine ⟨1 - q, ?_, by simp⟩
      simp only [Set.mem_ofPred_eq, hallocated] at hq ⊢
      omega
    · exact (hallocated n.start).1.mpr (.inl hends.1.1)
    · exact (hallocated n.finish).1.mpr (.inr hends.1.2)
    · rw [hends.1.1, hends.2.1]
      rfl
    · rw [hends.1.2, hends.2.2]
      rfl
    · intro p a q hp hq
      rw [(hallocated p).1] at hp
      rw [(hallocated q).1] at hq
      rcases hp with rfl | rfl <;> rcases hq with rfl | rfl <;>
        simp [Nfa.Edge, Nfa.targets, Nfa.node?, hn, hm, Nfa.Edges.mem_targets_singleton]
  exact ⟨h, ((ofNfa_renames alphabet _ _).2 _ h alphabet).2.1⟩

end RegexAutomata
