/-
What walks along silent edges find.

A walk takes turns: in each it takes some state from those still to visit, in any order. `Walk` says
where it stands: every root is seen or still to visit, and so is every state that a silent edge
leads to from a seen one.

* `Walk.turn` — every turn keeps this, so a walk that cannot go on has seen what can be reached;
* `wellFounded_turn` — no walk goes on forever;
* `turns_reach` — `reach` is such a walk, and its fuel lasts to the end of it;
* `mem_saturate`, `mem_closure` — so it finds exactly the states that silent edges lead to;
* `mem_startStates`, `mem_step`, `mem_connected` — what the sets of a run contain;
* `WellFormed.rememberAll` — remembering closures keeps an automaton well formed.
-/
import RegexAutomata.Nfa.Run
import RegexAutomata.Proofs.Nfa.Edge
import Mathlib.Data.Finset.Card
import Mathlib.Data.List.Perm.Subperm
import Mathlib.Data.Multiset.AddSub

namespace RegexAutomata.Nfa

open Relation (ReflTransGen TransGen)

variable {n : Nfa}

/-! ### Turns -/

/-- How far a walk is: the states that it has seen, and those that it is still to visit, where a
state can stand more than once. -/
structure Stage where
  seen : Std.TreeSet Int
  work : Multiset Int

namespace Stage

/-- A walk knows the states that it has seen and those that it is still to visit. -/
def Knows (s : Stage) (q : Int) : Prop := q ∈ s.seen ∨ q ∈ s.work

/-- The states that may become seen: states of the automaton and states still to visit. -/
def ahead (n : Nfa) (s : Stage) : Finset Int :=
  (n.stateList.toFinset ∪ s.work.toFinset).filter (· ∉ s.seen)

end Stage

/-- A turn takes a state from those still to visit. If it was seen before it is dropped, else it is
seen now, and its silent edges are followed. -/
inductive Turn (n : Nfa) : Stage → Stage → Prop where
  | drop {seen : Std.TreeSet Int} {work : Multiset Int} {q : Int} :
    q ∈ seen → Turn n ⟨seen, q ::ₘ work⟩ ⟨seen, work⟩
  | visit {seen : Std.TreeSet Int} {work : Multiset Int} {q : Int} :
    q ∉ seen → Turn n ⟨seen, q ::ₘ work⟩ ⟨seen.insert q, ↑(n.targets q epsilon) + work⟩

theorem mem_stateList {q : Int} : q ∈ n.stateList ↔ n.IsAllocated q := by
  rw [stateList, List.mem_map, IsAllocated]
  constructor
  · rintro ⟨i, hi, rfl⟩
    rw [List.mem_range] at hi
    exact ⟨by simp, by simpa using hi⟩
  · rintro ⟨h₀, h₁⟩
    exact ⟨q.toNat, by rw [List.mem_range]; omega, Int.toNat_of_nonneg h₀⟩

theorem mem_seen_insert {seen : Std.TreeSet Int} {p q : Int} :
    q ∈ seen.insert p ↔ p = q ∨ q ∈ seen := by
  rw [Std.TreeSet.mem_insert, Std.LawfulEqCmp.compare_eq_iff_eq]

theorem Stage.mem_ahead {s : Stage} {q : Int} :
    q ∈ s.ahead n ↔ (n.IsAllocated q ∨ q ∈ s.work) ∧ q ∉ s.seen := by
  simp [Stage.ahead, mem_stateList]

namespace Turn

variable {s t : Stage} {q : Int}

/-- What a walk knows it does not forget. -/
theorem knows (h : n.Turn s t) (hq : s.Knows q) : t.Knows q := by
  cases h with
  | drop hp =>
    rcases hq with hq | hq
    · exact .inl hq
    · rcases Multiset.mem_cons.mp hq with rfl | hq
      · exact .inl hp
      · exact .inr hq
  | visit hp =>
    rcases hq with hq | hq
    · exact .inl (mem_seen_insert.mpr (.inr hq))
    · rcases Multiset.mem_cons.mp hq with rfl | hq
      · exact .inl (mem_seen_insert.mpr (.inl rfl))
      · exact .inr (Multiset.mem_add.mpr (.inr hq))

/-- What a walk gets to know is where a silent edge leads to from a state that it knows. -/
theorem knows_or_silent (h : n.Turn s t) (hq : t.Knows q) :
    s.Knows q ∨ ∃ p, s.Knows p ∧ n.Silent p q := by
  cases h with
  | drop hp => exact .inl (hq.imp_right Multiset.mem_cons_of_mem)
  | @visit seen work p hp =>
    have hknown : Stage.Knows ⟨seen, p ::ₘ work⟩ p := .inr (Multiset.mem_cons_self p work)
    rcases hq with hq | hq
    · rcases mem_seen_insert.mp hq with rfl | hq
      · exact .inl hknown
      · exact .inl (.inl hq)
    · rcases Multiset.mem_add.mp hq with hq | hq
      · exact .inr ⟨p, hknown, hq⟩
      · exact .inl (.inr (Multiset.mem_cons_of_mem hq))

/-- A state that becomes seen has its silent edges followed. -/
theorem seen_or_silent (h : n.Turn s t) {p : Int} (hp : p ∈ t.seen) :
    p ∈ s.seen ∨ ∀ q, n.Silent p q → t.Knows q := by
  cases h with
  | drop => exact .inl hp
  | visit hr =>
    rcases mem_seen_insert.mp hp with rfl | hp
    · exact .inr fun q hq => .inr (Multiset.mem_add.mpr (.inl hq))
    · exact .inl hp

theorem mem_seen (h : n.Turn s t) (hq : q ∈ s.seen) : q ∈ t.seen := by
  cases h with
  | drop => exact hq
  | visit => exact mem_seen_insert.mpr (.inr hq)

theorem ahead_subset (hn : n.WellFormed) (h : n.Turn s t) : t.ahead n ⊆ s.ahead n := by
  intro q hq
  rw [Stage.mem_ahead] at hq ⊢
  obtain ⟨hq, hnew⟩ := hq
  have hold : q ∉ s.seen := fun hs => hnew (h.mem_seen hs)
  refine ⟨?_, hold⟩
  rcases hq with hq | hq
  · exact .inl hq
  · rcases h.knows_or_silent (.inr hq) with hs | ⟨p, -, hpq⟩
    · exact .inr (hs.resolve_left hold)
    · exact .inl (hn.isAllocated hpq)

/-- A turn leaves fewer states that may become seen, or as many and fewer to visit. -/
theorem measure (hn : n.WellFormed) (h : n.Turn s t) :
    Prod.Lex (· < ·) (· < ·) ((t.ahead n).card, t.work.card) ((s.ahead n).card, s.work.card) := by
  have hsub : t.ahead n ⊆ s.ahead n := h.ahead_subset hn
  cases h with
  | @drop seen work p hp =>
    have hwork : work.card < (p ::ₘ work).card := by simp
    rcases (Finset.card_le_card hsub).lt_or_eq with hlt | heq
    · exact .left _ _ hlt
    · rw [heq]
      exact .right _ hwork
  | @visit seen work p hp =>
    refine .left _ _ (Finset.card_lt_card ((Finset.ssubset_iff_of_subset hsub).mpr ⟨p, ?_, ?_⟩))
    · rw [Stage.mem_ahead]
      exact ⟨.inr (Multiset.mem_cons_self p work), hp⟩
    · -- the state that is visited is no longer ahead
      rw [Stage.mem_ahead]
      exact fun hahead => hahead.2 (mem_seen_insert.mpr (.inl rfl))

end Turn

/-! ### Walks -/

/-- Where a walk from some roots stands. -/
structure Walk (n : Nfa) (roots : List Int) (s : Stage) : Prop where
  root : ∀ q ∈ roots, s.Knows q
  reached : ∀ q, s.Knows q → ∃ r ∈ roots, ReflTransGen n.Silent r q
  silent : ∀ p ∈ s.seen, ∀ q, n.Silent p q → s.Knows q

namespace Walk

variable {roots : List Int} {s t : Stage}

theorem initial (n : Nfa) (roots : List Int) : Walk n roots ⟨∅, roots⟩ where
  root q h := .inr h
  reached q h := by
    rcases h with h | h
    · exact absurd h Std.TreeSet.not_mem_emptyc
    · exact ⟨q, h, .refl⟩
  silent p h := absurd h Std.TreeSet.not_mem_emptyc

theorem turn (h : Walk n roots s) (hst : n.Turn s t) : Walk n roots t where
  root q hq := hst.knows (h.root q hq)
  reached q hq := by
    rcases hst.knows_or_silent hq with hq | ⟨p, hp, hpq⟩
    · exact h.reached q hq
    · obtain ⟨r, hr, hrp⟩ := h.reached p hp
      exact ⟨r, hr, hrp.tail hpq⟩
  silent p hp q hpq := by
    rcases hst.seen_or_silent hp with hp | hp
    · exact hst.knows (h.silent p hp q hpq)
    · exact hp q hpq

theorem turns (h : Walk n roots s) (hst : ReflTransGen n.Turn s t) : Walk n roots t := by
  induction hst with
  | refl => exact h
  | tail _ hturn ih => exact ih.turn hturn

/-- A walk with nothing left to visit has seen what can be reached. -/
theorem mem_iff (h : Walk n roots s) (hwork : s.work = 0) (q : Int) :
    q ∈ s.seen ↔ ∃ r ∈ roots, ReflTransGen n.Silent r q := by
  have visited (p : Int) (hp : s.Knows p) : p ∈ s.seen := by
    simpa [Stage.Knows, hwork] using hp
  constructor
  · exact fun hq => h.reached q (.inl hq)
  · rintro ⟨r, hr, hrq⟩
    induction hrq with
    | refl => exact visited r (h.root r hr)
    | tail _ hpq ih => exact visited _ (h.silent _ ih _ hpq)

end Walk

/-- A walk can go on as long as something is left to visit. -/
theorem work_eq_zero_of_forall_not_turn {s : Stage} (h : ∀ t, ¬n.Turn s t) : s.work = 0 := by
  obtain ⟨seen, work⟩ := s
  induction work using Multiset.induction_on with
  | empty => rfl
  | cons q work =>
    by_cases hq : q ∈ seen
    · exact absurd (.drop hq) (h _)
    · exact absurd (.visit hq) (h _)

/-- No walk goes on forever, whichever states it takes next. -/
theorem wellFounded_turn (h : n.WellFormed) : WellFounded fun t s => n.Turn s t :=
  Subrelation.wf (fun hturn => hturn.measure h)
    (InvImage.wf (fun s : Stage => ((s.ahead n).card, s.work.card))
      (WellFounded.prod_lex wellFounded_lt wellFounded_lt))

/-! ### The walk of `reach` -/

/-- A set has no more elements than a list that contains them. -/
theorem size_le_length {α : Type} [Ord α] [Std.TransOrd α] [Std.LawfulEqOrd α]
    {seen : Std.TreeSet α} {l : List α} (h : ∀ a ∈ seen, a ∈ l) : seen.size ≤ l.length := by
  have hnodup : seen.toList.Nodup := by
    refine Std.TreeSet.distinct_toList.imp fun hne => ?_
    rintro rfl
    exact hne Std.ReflCmp.compare_self
  have hsub : seen.toList ⊆ l := fun a ha => h a (Std.TreeSet.mem_toList.mp ha)
  rw [← Std.TreeSet.length_toList]
  exact (List.subperm_of_subset hnodup hsub).length_le

theorem size_le_of_isAllocated {seen : Std.TreeSet Int} (h : ∀ q ∈ seen, n.IsAllocated q) :
    seen.size ≤ n.size := by
  have := size_le_length fun q hq => mem_stateList.mpr (h q hq)
  simpa [stateList] using this

theorem WellFormed.isAllocated_of_reach (h : n.WellFormed) {p q : Int} (hp : n.IsAllocated p)
    (hpq : ReflTransGen n.Silent p q) : n.IsAllocated q := by
  cases hpq with
  | refl => exact hp
  | tail _ hq => exact h.isAllocated hq

theorem Walk.size_seen_le (h : n.WellFormed) {roots : List Int} {s : Stage}
    (hroots : ∀ q ∈ roots, n.IsAllocated q) (hw : Walk n roots s) : s.seen.size ≤ n.size := by
  refine size_le_of_isAllocated fun q hq => ?_
  obtain ⟨r, hr, hrq⟩ := hw.reached q (.inl hq)
  exact h.isAllocated_of_reach (hroots r hr) hrq

/-- Dropping states that were seen before takes one turn for each. -/
theorem turns_dropWhile (n : Nfa) (seen : Std.TreeSet Int) (work : List Int) :
    ReflTransGen n.Turn ⟨seen, work⟩ ⟨seen, work.dropWhile seen.contains⟩ := by
  induction work with
  | nil => exact .refl
  | cons q work ih =>
    rw [List.dropWhile_cons]
    split
    · next hq =>
      have hdrop : n.Turn ⟨seen, ↑(q :: work)⟩ ⟨seen, work⟩ := by
        rw [← Multiset.cons_coe]
        exact .drop (Std.TreeSet.contains_iff_mem.mp hq)
      exact .head hdrop ih
    · exact .refl

/-- With enough fuel, `reach` takes turns until nothing is left to visit. -/
theorem turns_reach (h : n.WellFormed) {roots : List Int} (hroots : ∀ q ∈ roots, n.IsAllocated q)
    (fuel : Nat) {seen : Std.TreeSet Int} {work : List Int} (hw : Walk n roots ⟨seen, work⟩)
    (hfuel : n.size < fuel + seen.size) :
    ReflTransGen n.Turn ⟨seen, work⟩ ⟨n.reach fuel seen work, 0⟩ := by
  induction fuel generalizing seen work with
  | zero =>
    have hsize : seen.size ≤ n.size := hw.size_seen_le h hroots
    omega
  | succ fuel ih =>
    have hdrop := turns_dropWhile n seen work
    rw [reach]
    cases hd : work.dropWhile seen.contains with
    | nil =>
      rw [hd] at hdrop
      exact hdrop
    | cons p rest =>
      rw [hd] at hdrop
      -- the state that is visited is new, so that one more is seen for the fuel that is used
      have hp : seen.contains p = false := by
        have := List.head?_dropWhile_not seen.contains work
        rwa [hd] at this
      have hnew : p ∉ seen := fun hmem => by simp [Std.TreeSet.contains_iff_mem.mpr hmem] at hp
      have hvisit : n.Turn ⟨seen, ↑(p :: rest)⟩
          ⟨seen.insert p, ↑(n.targets p epsilon ++ rest)⟩ := by
        rw [← Multiset.cons_coe, ← Multiset.coe_add]
        exact .visit hnew
      have hturns := hdrop.tail hvisit
      refine hturns.trans (ih (hw.turns hturns) ?_)
      rw [Std.TreeSet.size_insert, hp]
      simp only [Bool.false_eq_true, ↓reduceIte]
      omega

/-- A walk with enough fuel finds what can be reached from its roots. -/
theorem mem_reach (h : n.WellFormed) {roots : List Int} (hroots : ∀ q ∈ roots, n.IsAllocated q)
    (fuel : Nat) (hfuel : n.size < fuel) (q : Int) :
    q ∈ n.reach fuel ∅ roots ↔ ∃ r ∈ roots, ReflTransGen n.Silent r q := by
  have hinit := Walk.initial n roots
  exact (hinit.turns (turns_reach h hroots fuel hinit (by simpa using hfuel))).mem_iff rfl q

theorem mem_saturate (h : n.WellFormed) {states : List Int}
    (hstates : ∀ q ∈ states, n.IsAllocated q) (q : Int) :
    q ∈ n.saturate states ↔ ∃ p ∈ states, ReflTransGen n.Silent p q := by
  rw [saturate, SortedSet.mem_ofTree]
  exact mem_reach h hstates _ n.size.lt_succ_self q

theorem mem_searchClosure (h : n.WellFormed) (p q : Int) :
    q ∈ n.searchClosure p ↔ TransGen n.Silent p q := by
  rw [searchClosure, mem_saturate h fun _ hr => h.isAllocated hr, TransGen.head'_iff]
  rfl

/-- What is remembered is what a walk would find. -/
theorem mem_closure (h : n.WellFormed) (p q : Int) :
    q ∈ n.closure p ↔ TransGen n.Silent p q := by
  rw [closure]
  cases hs : n.remembered[p]? with
  | none => exact mem_searchClosure h p q
  | some s => exact h.mem_remembered hs q

theorem mem_startStates (h : n.WellFormed) (q : Int) :
    q ∈ n.startStates ↔ ReflTransGen n.Silent n.start q := by
  rw [startStates, SortedSet.mem_insert, mem_closure h, Relation.reflTransGen_iff_eq_or_transGen]

theorem mem_connected (h : n.WellFormed) {p r : Int} {a : Symbol} :
    r ∈ n.connected p a ↔ ∃ q, n.Edge p a q ∧ ReflTransGen n.Silent q r := by
  rw [connected]
  simp only [Edge]
  cases n.targets p a with
  | nil => simp
  | cons q rest =>
    simp only [SortedSet.mem_ofList, List.mem_append, List.mem_flatMap, ← SortedSet.mem_iff,
      mem_closure h, Relation.reflTransGen_iff_eq_or_transGen]
    constructor
    · rintro (hr | ⟨s, hs, hsr⟩)
      · exact ⟨r, hr, .inl rfl⟩
      · exact ⟨s, hs, .inr hsr⟩
    · rintro ⟨s, hs, rfl | hsr⟩
      · exact .inl hs
      · exact .inr ⟨s, hs, hsr⟩

theorem mem_step (h : n.WellFormed) {current : StateSet} {a : Symbol} {r : Int} :
    r ∈ n.step current a ↔ ∃ p ∈ current, ∃ q, n.Edge p a q ∧ ReflTransGen n.Silent q r := by
  rw [step, SortedSet.mem_unionOver]
  simp only [mem_connected h, SortedSet.mem_iff]

theorem WellFormed.isAllocated_of_mem_step (h : n.WellFormed) {current : StateSet} {a : Symbol}
    {q : Int} (hq : q ∈ n.step current a) : n.IsAllocated q := by
  obtain ⟨p, -, r, he, hr⟩ := (mem_step h).mp hq
  exact h.isAllocated_of_reach (h.isAllocated he) hr

/-- Only the start itself can be in the start set without being a state, and then it is alone. -/
theorem WellFormed.isAllocated_of_mem_startStates (h : n.WellFormed) {q : Int}
    (hq : q ∈ n.startStates) : q = n.start ∨ (n.IsAllocated n.start ∧ n.IsAllocated q) := by
  rw [mem_startStates h, Relation.reflTransGen_iff_eq_or_transGen] at hq
  rcases hq with hq | hq
  · exact .inl hq
  · obtain ⟨r, he, hr⟩ := TransGen.head'_iff.mp hq
    exact .inr ⟨he.isAllocated, h.isAllocated_of_reach (h.isAllocated he) hr⟩

/-- Remembering closures changes nothing else. -/
theorem exists_rememberAll_eq (n : Nfa) (states : List Int) :
    ∃ r, n.rememberAll states = { n with remembered := r } := by
  rw [rememberAll]
  induction states generalizing n with
  | nil => exact ⟨n.remembered, rfl⟩
  | cons p rest ih =>
    obtain ⟨r, hr⟩ := ih (n.remember p)
    exact ⟨r, hr⟩

namespace WellFormed

theorem remember (h : n.WellFormed) (p : Int) : (n.remember p).WellFormed where
  isAllocated := h.isAllocated
  hasIncoming_iff := h.hasIncoming_iff
  hasOutgoing_iff := h.hasOutgoing_iff
  mem_remembered {q s} hs r := by
    change (n.remembered.insert p (n.closure p))[q]? = some s at hs
    rw [Std.TreeMap.getElem?_insert] at hs
    split at hs
    · next hpq =>
      rw [Std.LawfulEqCmp.compare_eq_iff_eq] at hpq
      cases hs
      rw [mem_closure h, hpq]
      rfl
    · exact h.mem_remembered hs r

theorem rememberAll (h : n.WellFormed) (states : List Int) : (n.rememberAll states).WellFormed := by
  rw [Nfa.rememberAll]
  induction states generalizing n with
  | nil => exact h
  | cons p rest ih => exact ih (h.remember p)

end WellFormed

end RegexAutomata.Nfa
