/-
Calling the rules of a parser one by one.

Each rule can be called at any position, and also after a rule has failed: the parser then goes on
from where the failure left it.
-/
import RegexAutomata.Regex.Parser

namespace RegexAutomata.Regex

/-- What a parser can be asked to do. -/
inductive Call where
  | peek
  | consume
  | symbol
  | kleene
  | concat
  | union
  | parse
  /-- show the edges of the automaton built so far -/
  | edges
deriving DecidableEq

inductive Reply where
  | point (c : Option CodePoint)
  | fragment (f : Nfa.Fragment)
  | edges (transitions : List (Int × Symbol × List Int))

namespace Call

def run : Call → Rule Reply
  | peek => return .point (← Parser.peek)
  | consume => return .point (← Parser.consume)
  | symbol => return .fragment (← Parser.symbol)
  | kleene => return .fragment (← Parser.kleene)
  | concat => return .fragment (← Parser.concat)
  | union => return .fragment (← Parser.union)
  | parse => return .fragment (← Parser.parse)
  | edges => return .edges (← get).nfa.transitions

/-- The outcome of a call and the parser after it. -/
def perform (call : Call) (p : Parser) : Except ParseError Reply × Parser :=
  match call.run p with
  | .ok reply p => (.ok reply, p)
  | .error e p => (.error e, p)

end Call

end RegexAutomata.Regex
