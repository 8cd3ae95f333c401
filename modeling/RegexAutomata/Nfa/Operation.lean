/-
Operations on an automaton in any order: changes, and questions about it.

A change may fail, and what it did before it failed stays: nothing for a refused edge, but the
states and edges that were added before an error in an expression. A question never changes what the
automaton is, but it makes it remember closures.
-/
import RegexAutomata.Dfa.Subsets
import RegexAutomata.Dfa.Trace
import RegexAutomata.Dictionary
import RegexAutomata.Dot.Drawing
import RegexAutomata.Regex.Parser

namespace RegexAutomata.Nfa

inductive Change where
  | newState
  | addTransition (p : Int) (a : Symbol) (q : Int)
  | setStart (q : Int)
  | setFinish (q : Int)
  /-- read an expression into the automaton -/
  | parse (regex : Text)

/-- A question about an automaton. -/
inductive Question where
  | targets (q : Int) (a : Symbol)
  | connected (q : Int) (a : Symbol)
  | closure (s : Selection)
  | startStates
  | accepting
  | accepts (word : Text)
  | hasIncoming (q : Int)
  | hasOutgoing (i : Int)
  | transitions
  | dictionary
  | drawing
  | display
  /-- the deterministic automaton, for the automaton's own alphabet or another one -/
  | determinized (alphabet : Option Alphabet)

inductive Operation where
  | change (c : Change)
  | ask (q : Question)

inductive Answer where
  | done
  | state (q : Int)
  | states (list : List Int)
  | set (s : StateSet)
  | verdict (b : Bool)
  | fragment (f : Fragment)
  | transitions (list : List (Int × Symbol × List Int))
  | dictionary (d : Dictionary)
  | drawing (d : Dot.Drawing)
  | text (t : Text)
  | automaton (d : Dfa)

/-- Why an operation failed. -/
inductive OperationError where
  | transition (e : TransitionError)
  | index (e : IndexError)
  | parse (e : Regex.ParseError)

namespace Change

def perform (n : Nfa) : Change → Except OperationError Answer × Nfa
  | newState =>
    let (q, n) := n.newState
    (.ok (.state q), n)
  | addTransition p a q =>
    match Nfa.addTransition p a q n with
    | .ok _ n => (.ok .done, n)
    | .error e n => (.error (.transition e), n)
  | setStart q => (.ok .done, { n with start := q })
  | setFinish q => (.ok .done, { n with finish := q })
  | parse regex =>
    match Regex.parseInto regex n with
    | (.ok f, n) => (.ok (.fragment f), n)
    | (.error e, n) => (.error (.parse e), n)

end Change

namespace Question

/-- The answer to a question. -/
def answer (n : Nfa) : Question → Except OperationError Answer
  | targets q a => .ok (.states (n.targets q a))
  | connected q a => .ok (.set (n.connected q a))
  | closure s => .ok (.set (n.closureOf s))
  | startStates => .ok (.set n.startStates)
  | accepting => .ok (.set (.ofList [n.finish]))
  | accepts word => .ok (.verdict (n.accepts word))
  | hasIncoming q => .ok (.verdict (n.hasIncoming q))
  | hasOutgoing i =>
    match n.hasOutgoingAt i with
    | .ok b => .ok (.verdict b)
    | .error e => .error (.index e)
  | transitions => .ok (.transitions n.transitions)
  | dictionary => .ok (.dictionary n.toDictionary)
  | drawing => .ok (.drawing n.drawing)
  | display => .ok (.text n.display)
  | determinized alphabet => .ok (.automaton (.ofNfa n (alphabet.getD n.alphabet)))

/-- The states whose closures a question needs. -/
def needs (n : Nfa) : Question → List Int
  | connected q a => n.targets q a
  | closure s => s.states
  | startStates => [n.start]
  | accepts word => n.start :: n.movedAll n.startStates word
  | determinized alphabet =>
    let symbols := alphabet.getD n.alphabet
    n.start :: (Dfa.ofNfa n symbols).subsets.flatMap fun (_, s) =>
      symbols.toList.flatMap (n.moved s ·)
  | _ => []

/-- Answers a question and remembers the closures that it needed. -/
def perform (n : Nfa) (q : Question) : Except OperationError Answer × Nfa :=
  let n := n.rememberAll (q.needs n)
  (q.answer n, n)

end Question

namespace Operation

def perform (n : Nfa) : Operation → Except OperationError Answer × Nfa
  | change c => c.perform n
  | ask q => q.perform n

/-- The automaton after some operations. -/
def after (n : Nfa) : List Operation → Nfa
  | [] => n
  | op :: rest => after (op.perform n).2 rest

/-- The outcomes of some operations, in order. -/
def outcomes (n : Nfa) : List Operation → List (Except OperationError Answer)
  | [] => []
  | op :: rest =>
    let (outcome, n) := op.perform n
    outcome :: outcomes n rest

end Operation

end RegexAutomata.Nfa
