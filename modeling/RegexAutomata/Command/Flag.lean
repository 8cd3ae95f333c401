/-
The flags of the command.

A switch stands alone and an output flag has the path of a file as its value. Flags have a long
name, and most have a letter. Long names may be shortened to an initial part that no other name has.

* `Flag.mem_all` — every flag is listed;
* `Flag.ofName_name`, `Flag.ofLetter_eq_some_iff` — names and letters determine the flag.
-/
import RegexAutomata.Text.CodePoint

namespace RegexAutomata.Command

/-- A flag that stands alone. -/
inductive Switch where
  | help
  | verbose
  | version
deriving DecidableEq

/-- A file that is written. -/
inductive Output where
  | nfa
  | dfa
deriving DecidableEq

inductive Flag where
  | switch (s : Switch)
  | output (o : Output)
deriving DecidableEq

namespace Flag

/-- All flags, in the order in which they are listed. -/
def all : List Flag :=
  [switch .help, switch .verbose, output .nfa, output .dfa, switch .version]

def name : Flag → Text
  | switch .help => "--help"
  | switch .verbose => "--verbose"
  | output .nfa => "--nfa-file"
  | output .dfa => "--dfa-file"
  | switch .version => "--version"

def letter? : Flag → Option CodePoint
  | switch .help => some 'h'
  | switch .verbose => some 'v'
  | output .nfa => some 'n'
  | output .dfa => some 'd'
  | switch .version => none

/-- Letter and name together. -/
def display (f : Flag) : Text :=
  match f.letter? with
  | some c => CodePoint.ofChar '-' :: c :: CodePoint.ofChar '/' :: f.name
  | none => f.name

def ofLetter? (c : CodePoint) : Option Flag := all.find? fun f => f.letter? = some c

def ofName? (t : Text) : Option Flag := all.find? fun f => f.name = t

/-- The flags whose names start with a text. -/
def startingWith (t : Text) : List Flag := all.filter fun f => t.isPrefixOf f.name

theorem mem_all (f : Flag) : f ∈ all := by
  rcases f with s | o
  · cases s <;> simp [all]
  · cases o <;> simp [all]

theorem ofName_name (f : Flag) : ofName? f.name = some f := by
  rcases f with s | o
  · cases s <;> decide
  · cases o <;> decide

theorem ofLetter_eq_some_iff {c : CodePoint} {f : Flag} :
    ofLetter? c = some f ↔ f.letter? = some c := by
  constructor
  · intro h
    simpa using List.find?_some h
  · intro h
    rcases f with s | o
    · cases s <;> simp only [letter?, Option.some.injEq, reduceCtorEq] at h <;> subst h <;> decide
    · cases o <;> simp only [letter?, Option.some.injEq] at h <;> subst h <;> decide

end Flag

end RegexAutomata.Command
