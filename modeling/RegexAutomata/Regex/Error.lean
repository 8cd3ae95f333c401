/-
What can be wrong with a regular expression.
-/
import RegexAutomata.Text.CodePoint

namespace RegexAutomata.Regex

/-- The greatest number of groups that may be open at the same time. -/
def maxDepth : Nat := 100

/-- Why an expression was refused. -/
inductive Cause where
  | unexpectedEnd
  /-- a code point stands where a symbol of the alphabet was needed -/
  | notInAlphabet (c : CodePoint)
  /-- the group that was opened at an index is not closed -/
  | unclosedGroup (opened : Nat)
  /-- text follows the complete expression -/
  | trailing (c : CodePoint)
  /-- a union is followed by something that neither closes a group nor continues it -/
  | beyondUnion (c : CodePoint)
  | nestingTooDeep
deriving DecidableEq

/-- The kinds of errors that callers tell apart. -/
inductive Kind where
  | unexpectedEnd
  | notInAlphabet
  | unmatchedParenthesis
  | trailingInput
  | nestingTooDeep
deriving DecidableEq

def Cause.kind : Cause → Kind
  | unexpectedEnd => .unexpectedEnd
  | notInAlphabet _ => .notInAlphabet
  | unclosedGroup _ => .unmatchedParenthesis
  | trailing _ => .trailingInput
  | beyondUnion _ => .trailingInput
  | nestingTooDeep => .nestingTooDeep

def Kind.name : Kind → Text
  | unexpectedEnd => "unexpected_end_of_input"
  | notInAlphabet => "character_not_in_alphabet"
  | unmatchedParenthesis => "unmatched_parenthesis"
  | trailingInput => "trailing_input"
  | nestingTooDeep => "nesting_too_deep"

/-- What is said of a cause, without its place. -/
def Cause.message : Cause → Text
  | unexpectedEnd => "Expected a symbol but reached the end of the regex"
  | notInAlphabet c => "Character '" ++ [c] ++ "' is not in the alphabet"
  | unclosedGroup opened => "Missing ')' for the group opened at index " ++ Text.ofNat opened
  | trailing c => "Unexpected '" ++ [c] ++ "' after complete expression"
  | beyondUnion c => "Invalid character '" ++ [c] ++ "' beyond expression"
  | nestingTooDeep => "Groups nested deeper than " ++ Text.ofNat maxDepth ++ " levels"

/-- An error in an expression, with the position at which it was found. -/
structure ParseError where
  cause : Cause
  position : Nat
  regex : Text
deriving DecidableEq

namespace ParseError

def kind (e : ParseError) : Kind := e.cause.kind

def message (e : ParseError) : Text :=
  e.cause.message ++ " at position " ++ Text.ofNat e.position ++ " in '" ++ e.regex ++ "'"

end ParseError

end RegexAutomata.Regex
