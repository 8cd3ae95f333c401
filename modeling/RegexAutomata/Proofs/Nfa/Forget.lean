/-
Automata that forget what they remember.

What an automaton remembers is no part of what it is. The steps that build fragments give the same
fragment and the same automaton, up to what is remembered, whether something was remembered before
or not. As long as what is remembered is right, runs do not show it either.

* `Blind.literal`, `Blind.join`, `Blind.chooseAll`, `Blind.star` — building steps;
* `WellFormed.closure_forget`, `WellFormed.step_forget`, `WellFormed.accepts_forget` — runs;
* `WellFormed.ofNfa_forget` — the subset construction.
-/
import RegexAutomata.Dfa.Subsets
import RegexAutomata.Nfa.Fragment
import RegexAutomata.Proofs.Nfa.Reach

namespace RegexAutomata.Nfa

open Dfa (Subsets)

/-- The automaton with nothing remembered. -/
def forget (n : Nfa) : Nfa := { n with remembered := ∅ }

variable {n : Nfa}

@[simp] theorem alphabet_forget (n : Nfa) : n.forget.alphabet = n.alphabet := rfl

@[simp] theorem size_forget (n : Nfa) : n.forget.size = n.size := rfl

@[simp] theorem targets_forget (n : Nfa) (q : Int) (a : Symbol) :
    n.forget.targets q a = n.targets q a := rfl

@[simp] theorem forget_rememberAll (n : Nfa) (states : List Int) :
    (n.rememberAll states).forget = n.forget := by
  obtain ⟨r, hr⟩ := n.exists_rememberAll_eq states
  rw [hr]
  rfl

/-! ### Building steps -/

theorem newState_forget (n : Nfa) : n.forget.newState = (n.newState.1, n.newState.2.forget) := rfl

theorem link_forget (n : Nfa) (p : Int) (a : Symbol) (q : Int) :
    n.forget.link p a q = (n.link p a q).forget := by
  rw [link, link, targets_forget]
  split <;> rfl

/-- A building step that does not look at what is remembered: forgetting before it is the same as
forgetting after it. -/
def Blind (f : Nfa → Fragment × Nfa) : Prop := ∀ n, f n.forget = ((f n).1, (f n).2.forget)

namespace Blind

theorem literal (a : Symbol) : Blind (Nfa.literal a) := by
  intro n
  simp only [Nfa.literal, newState_forget, link_forget]

theorem join (f g : Fragment) : Blind (Nfa.join f g) := by
  intro n
  simp only [Nfa.join, link_forget]

theorem choose (f g : Fragment) : Blind (Nfa.choose f g) := by
  intro n
  simp only [Nfa.choose, newState_forget, link_forget]

theorem chooseAll (f : Fragment) (others : List Fragment) : Blind (Nfa.chooseAll f others) := by
  induction others generalizing f with
  | nil => exact fun n => rfl
  | cons g rest ih =>
    intro n
    simp only [Nfa.chooseAll, ih g n]
    exact choose f _ _

theorem wrap (f : Fragment) : Blind (Nfa.wrap f) := by
  intro n
  simp only [Nfa.wrap, newState_forget, link_forget]

theorem star (f : Fragment) : Blind (Nfa.star f) := by
  intro n
  have hends : (n.forget.hasIncoming f.entry || n.forget.hasOutgoing f.exit)
      = (n.hasIncoming f.entry || n.hasOutgoing f.exit) := rfl
  simp only [Nfa.star, hends]
  split
  · simp only [wrap f n, link_forget]
  · simp only [link_forget]

end Blind

/-! ### Runs -/

namespace WellFormed

theorem forget (h : n.WellFormed) : n.forget.WellFormed where
  isAllocated := h.isAllocated
  hasIncoming_iff := h.hasIncoming_iff
  hasOutgoing_iff := h.hasOutgoing_iff
  mem_remembered hs := by
    have hs : (∅ : Std.TreeMap Int StateSet)[_]? = some _ := hs
    simp at hs

/-- Remembered closures are those that a walk finds. -/
theorem closure_forget (h : n.WellFormed) (q : Int) : n.forget.closure q = n.closure q := by
  refine SortedSet.ext fun r => ?_
  rw [mem_closure h.forget, mem_closure h]
  rfl

theorem closureOf_forget (h : n.WellFormed) (s : Selection) :
    n.forget.closureOf s = n.closureOf s := by
  simp only [closureOf, funext h.closure_forget]

theorem startStates_forget (h : n.WellFormed) : n.forget.startStates = n.startStates := by
  rw [startStates, h.closure_forget]
  rfl

theorem connected_forget (h : n.WellFormed) (q : Int) (a : Symbol) :
    n.forget.connected q a = n.connected q a := by
  simp only [connected, targets_forget, funext h.closure_forget]

theorem step_forget (h : n.WellFormed) (current : StateSet) (a : Symbol) :
    n.forget.step current a = n.step current a := by
  simp only [step, h.connected_forget]

theorem acceptsFrom_forget (h : n.WellFormed) (current : StateSet) (w : Text) :
    n.forget.acceptsFrom current w = n.acceptsFrom current w := by
  induction w generalizing current with
  | nil => rfl
  | cons c w ih => simp only [acceptsFrom, h.step_forget, ih]

theorem accepts_forget (h : n.WellFormed) (w : Text) : n.forget.accepts w = n.accepts w := by
  rw [accepts, h.startStates_forget, h.acceptsFrom_forget, accepts]

/-! ### The subset construction -/

theorem addMove_forget (h : n.WellFormed) (q : Nat) (current : StateSet) :
    Subsets.addMove n.forget q current = Subsets.addMove n q current := by
  funext b a
  simp only [Subsets.addMove, h.step_forget]

theorem subsetsStep_forget (h : n.WellFormed) (symbols : List Symbol) (b : Subsets) :
    Subsets.step n.forget symbols b = Subsets.step n symbols b := by
  simp only [Subsets.step, h.addMove_forget]

theorem run_forget (h : n.WellFormed) (symbols : List Symbol) (fuel : Nat) (b : Subsets) :
    Subsets.run n.forget symbols fuel b = Subsets.run n symbols fuel b := by
  induction fuel generalizing b with
  | zero => rfl
  | succ fuel ih => simp only [Subsets.run, h.subsetsStep_forget, ih]

theorem ofNfa_forget (h : n.WellFormed) (alphabet : Alphabet) :
    Dfa.ofNfa n.forget alphabet = Dfa.ofNfa n alphabet := by
  have hinitial : Subsets.initial n.forget = Subsets.initial n := by
    rw [Subsets.initial, h.startStates_forget]
    rfl
  have hcomplete : Subsets.complete n.forget alphabet.toList
      = Subsets.complete n alphabet.toList := by
    rw [Subsets.complete, hinitial, h.run_forget, size_forget]
    rfl
  rw [Dfa.ofNfa, hcomplete]
  rfl

end WellFormed

end RegexAutomata.Nfa
