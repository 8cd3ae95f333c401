/-
Arguments told apart by their form.

An argument is a flag, a text that stands for itself, or an unknown flag. Negative numbers and texts
with blanks stand for themselves unless they are flags, and after two dashes all arguments do.

* `Token.ofTexts_separator` — nothing behind the separator is a flag.
-/
import RegexAutomata.Command.Usage
import RegexAutomata.Text.DecimalDigit

namespace RegexAutomata.Command

/-- An argument, told apart by its form. -/
inductive Token where
  | plain (t : Text)
  /-- two dashes, which end the flags -/
  | separator
  | flag (f : Flag) (value : Option Text)
  /-- a flag given by its letter, with more behind it -/
  | letters (f : Flag) (behind : Text)
  | unknown (t : Text)
deriving DecidableEq

def Token.separatorText : Text := "--"

def allDigits (t : Text) : Bool := t.all CodePoint.isDecimalDigit

/-- Whether a text is a decimal numeral behind a dash, perhaps with a line feed at the end. -/
def isNegativeNumber (t : Text) : Bool :=
  match if t.getLast? = some (CodePoint.ofChar '\n') then t.dropLast else t with
  | [] => false
  | c :: numeral =>
    c = '-' &&
      (match Text.cut? '.' numeral with
      | none => !numeral.isEmpty && allDigits numeral
      | some (whole, fraction) => allDigits whole && !fraction.isEmpty && allDigits fraction)

namespace Token

/-- What a text behind a dash is that tells no flag: numbers and texts with blanks are plain. -/
def ofOther (t : Text) : Token :=
  if isNegativeNumber t || t.contains (CodePoint.ofChar ' ') then plain t else unknown t

/-- A long name, perhaps shortened, and perhaps with a value behind an equals sign. -/
def ofLong (t : Text) : Except UsageError Token :=
  let (name, value) : Text × Option Text :=
    match Text.cut? '=' t with
    | some (name, value) => (name, some value)
    | none => (t, none)
  match Flag.ofName? name, Flag.startingWith name with
  | some f, _ => .ok (flag f value)
  | none, [] => .ok (ofOther t)
  | none, [f] => .ok (flag f value)
  | none, flags => .error (.ambiguous t flags)

/-- A flag's letter and what stands behind it. An equals sign right behind the letter is dropped. -/
def ofLetter (f : Flag) : Text → Token
  | [] => flag f none
  | c :: rest =>
    if c ≠ '=' then letters f (c :: rest)
    else if rest.isEmpty then flag f (some [])
    else letters f rest

/-- What an argument is, if flags have not ended. -/
def ofText (t : Text) : Except UsageError Token :=
  match t with
  | first :: second :: rest =>
    if first ≠ '-' then .ok (plain t)
    else if second = '-' then
      if rest.isEmpty then .ok separator else ofLong t
    else
      match Flag.ofLetter? second with
      | some f => .ok (ofLetter f rest)
      | none => .ok (ofOther t)
  | _ => .ok (plain t)

def ofTexts : List Text → Except UsageError (List Token)
  | [] => .ok []
  | t :: rest => do
    match ← ofText t with
    | separator => return separator :: rest.map plain
    | token => return token :: (← ofTexts rest)

/-- Nothing behind the separator is a flag. -/
theorem ofTexts_separator (rest : List Text) :
    ofTexts (separatorText :: rest) = .ok (separator :: rest.map plain) := by
  rfl

end Token

end RegexAutomata.Command
