/-
Running a deterministic automaton and keeping the way it took.

A trace holds the moves that were made and, if the word was rejected, the cause and the position.

* `Dfa.Trace.accepted_iff` — a word is accepted exactly if its trace names no cause of rejection.
-/
import RegexAutomata.Dfa.Basic

namespace RegexAutomata.Dfa

inductive Rejection where
  /-- the next code point is no symbol of the alphabet -/
  | outsideAlphabet (c : CodePoint)
  /-- the state has no move on the next code point -/
  | noMove (c : CodePoint) (q : Int)
  /-- the word ended in a state that does not accept -/
  | notAccepting (q : Int)
deriving DecidableEq

def Rejection.message : Rejection → Text
  | outsideAlphabet c => "Symbol '" ++ [c] ++ "' not in alphabet"
  | noMove c q =>
    "No transition defined for symbol '" ++ [c] ++ "' from state " ++ Text.ofInt q
  | notAccepting q => "Final state " ++ Text.ofInt q ++ " is not an accepting state"

/-- The moves made for a word, and cause and position of its rejection, if it was rejected. -/
structure Trace where
  path : List Move
  rejection : Option (Rejection × Nat)
deriving DecidableEq

namespace Trace

def accepted (t : Trace) : Bool := t.rejection.isNone

/-- The trace with one move before it. -/
def cons (m : Move) (t : Trace) : Trace := { t with path := m :: t.path }

theorem accepted_iff {t : Trace} : t.accepted = true ↔ t.rejection = none := by
  simp [accepted]

end Trace

/-- The trace of a word from a state, where a number of code points were read before. -/
def traceFrom (d : Dfa) (q : Int) (position : Nat) : Text → Trace
  | [] =>
    if q ∈ d.accepting then ⟨[], none⟩ else ⟨[], some (.notAccepting q, position)⟩
  | c :: rest =>
    match d.next? q [c] with
    | none =>
      -- there may be moves on symbols outside of the alphabet, so the move is looked for first
      ⟨[], some (if [c] ∈ d.alphabet then .noMove c q else .outsideAlphabet c, position)⟩
    | some r => .cons ⟨q, [c], r⟩ (traceFrom d r (position + 1) rest)

/-- The trace of a word from the start state. -/
def trace (d : Dfa) (word : Text) : Trace := d.traceFrom start 0 word

def accepts (d : Dfa) (word : Text) : Bool := (d.trace word).accepted

end RegexAutomata.Dfa
