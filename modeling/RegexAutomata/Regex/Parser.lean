/-
Reading a regular expression and building its automaton on the way.

An expression is a union of concatenations of starred symbols, where a symbol is a symbol of the
alphabet other than the four operators, or a union in parentheses. A `Parser` holds what is left of
the text, how many groups are open, and the automaton built so far. A rule either gives the fragment
that it built or fails; in both cases what it read and built before stays.

The rules for stars, concatenations and unions take the rule for symbols as an argument; the rule
for symbols is then defined by recursion on the number of groups that may still be opened.
-/
import RegexAutomata.Nfa.Fragment
import RegexAutomata.Regex.Error

namespace RegexAutomata.Regex

/-- Separates the alternatives of a union. -/
def unionSign : CodePoint := '+'

/-- Repeats the symbol before it. -/
def starSign : CodePoint := '*'

def openGroup : CodePoint := '('

def closeGroup : CodePoint := ')'

/-- Whether a code point is an operator and so never a literal. -/
def isOperator (c : CodePoint) : Bool :=
  c = unionSign || c = starSign || c = openGroup || c = closeGroup

/-- The state of reading an expression. -/
structure Parser where
  /-- the whole expression -/
  regex : Text
  /-- what is left of it -/
  rest : Text
  /-- how many code points were read -/
  position : Nat
  depth : Nat
  nfa : Nfa

/-- Reads part of an expression; the parser is kept when it fails. -/
abbrev Rule (α : Type) := EStateM ParseError Parser α

namespace Parser

/-- A parser at the start of an expression, which adds to a given automaton. -/
def ofNfa (regex : Text) (nfa : Nfa) : Parser := ⟨regex, regex, 0, 0, nfa⟩

/-- A parser at the start of an expression over an alphabet. -/
def new (regex : Text) (alphabet : Alphabet) : Parser := ofNfa regex (.empty alphabet)

/-- The next code point, which stays unread. -/
def peek : Rule (Option CodePoint) := do
  return (← get).rest.head?

/-- Reads the next code point, if there is one. -/
def consume : Rule (Option CodePoint) := fun p =>
  match p.rest with
  | [] => .ok none p
  | c :: rest => .ok (some c) { p with rest, position := p.position + 1 }

def fail {α : Type} (cause : Cause) : Rule α := fun p =>
  .error ⟨cause, p.position, p.regex⟩ p

def build (f : Nfa → Nfa.Fragment × Nfa) : Rule Nfa.Fragment := fun p =>
  let (fragment, nfa) := f p.nfa
  .ok fragment { p with nfa }

def setDepth (f : Nat → Nat) : Rule Unit := fun p => .ok () { p with depth := f p.depth }

/-- A symbol of the alphabet that is no operator. -/
def literal (c : CodePoint) : Rule Nfa.Fragment := do
  if isOperator c || [c] ∉ (← get).nfa.alphabet then fail (.notInAlphabet c)
  else
    discard consume
    build (Nfa.literal [c])

/-- A symbol, or a group read by the given rule. -/
def symbolWith (group : Rule Nfa.Fragment) : Rule Nfa.Fragment := do
  match ← peek with
  | none => fail .unexpectedEnd
  | some c => if c = openGroup then group else literal c

/-- A symbol and an optional star. -/
def kleeneWith (symbol : Rule Nfa.Fragment) : Rule Nfa.Fragment := do
  let f ← symbol
  if (← peek) = some starSign then
    discard consume
    build (Nfa.star f)
  else return f

/-- Whether a concatenation ends before this code point. -/
def endsConcat (next : Option CodePoint) : Bool :=
  next = none || next = some closeGroup || next = some unionSign

/-- Joins what follows to a fragment, as long as the concatenation goes on. -/
def concatRest (symbol : Rule Nfa.Fragment) : Nat → Nfa.Fragment → Rule Nfa.Fragment
  | 0, f => return f
  | fuel + 1, f => do
    if endsConcat (← peek) then return f
    else
      let g ← kleeneWith symbol
      let f ← build (Nfa.join f g)
      -- a symbol takes one code point at least, so the fuel lasts as long as the text
      concatRest symbol fuel f

/-- One or more starred symbols, one after the other. -/
def concatWith (symbol : Rule Nfa.Fragment) : Rule Nfa.Fragment := do
  let f ← kleeneWith symbol
  concatRest symbol (← get).rest.length f

/-- The further alternatives of a union. -/
def alternatives (symbol : Rule Nfa.Fragment) : Nat → Rule (List Nfa.Fragment)
  | 0 => return []
  | fuel + 1 => do
    if (← peek) = some unionSign then
      discard consume
      let f ← concatWith symbol
      return f :: (← alternatives symbol fuel)
    else return []

/-- Fails unless the text or a group ends here. -/
def endOfUnion : Rule Unit := do
  match ← peek with
  | none => return ()
  | some c => if c = closeGroup then return () else fail (.beyondUnion c)

/-- One or more concatenations, separated by the sign for unions. -/
def unionWith (symbol : Rule Nfa.Fragment) : Rule Nfa.Fragment := do
  let f ← concatWith symbol
  let others ← alternatives symbol (← get).rest.length
  endOfUnion
  build (Nfa.chooseAll f others)

/-- A union in parentheses. -/
def groupWith (symbol : Rule Nfa.Fragment) : Rule Nfa.Fragment := do
  let opened := (← get).position
  discard consume
  setDepth (· + 1)
  -- a union that fails leaves the group open
  let f ← unionWith symbol
  setDepth (· - 1)
  if (← peek) = some closeGroup then
    discard consume
    return f
  else fail (.unclosedGroup opened)

/-- A symbol in which at most the given number of groups are nested. -/
def symbolWithin : Nat → Rule Nfa.Fragment
  | 0 => symbolWith (fail .nestingTooDeep)
  | level + 1 => symbolWith (groupWith (symbolWithin level))

/-- A symbol: a literal or a group. -/
def symbol : Rule Nfa.Fragment := do
  symbolWithin (maxDepth - (← get).depth)

def kleene : Rule Nfa.Fragment := do
  kleeneWith (symbolWithin (maxDepth - (← get).depth))

def concat : Rule Nfa.Fragment := do
  concatWith (symbolWithin (maxDepth - (← get).depth))

def union : Rule Nfa.Fragment := do
  unionWith (symbolWithin (maxDepth - (← get).depth))

/-- Fails unless all text was read. -/
def endOfText : Rule Unit := do
  match ← peek with
  | none => return ()
  | some c => fail (.trailing c)

/-- Makes the ends of a fragment the start and the final state of the automaton. -/
def finish (f : Nfa.Fragment) : Rule Unit := fun p =>
  .ok () { p with nfa := { p.nfa with start := f.entry, finish := f.exit } }

/-- A whole expression; its fragment gives the automaton its start and its final state. -/
def parse : Rule Nfa.Fragment := do
  let f ← union
  endOfText
  finish f
  return f

end Parser

/-- The automaton of an expression over an alphabet, or the first error in the expression. -/
def toNfa (regex : Text) (alphabet : Alphabet) : Except ParseError Nfa :=
  match Parser.parse (.new regex alphabet) with
  | .ok _ p => .ok p.nfa
  | .error e _ => .error e

/-- Reads an expression into an automaton. The states and edges that were added before an error
stay; start and final state change on success only. -/
def parseInto (regex : Text) (n : Nfa) : Except ParseError Nfa.Fragment × Nfa :=
  match Parser.parse (.ofNfa regex n) with
  | .ok f p => (.ok f, p.nfa)
  | .error e p => (.error e, p.nfa)

end RegexAutomata.Regex
