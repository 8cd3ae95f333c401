/-
Reading JSON text.

A reader takes a cursor, that is the rest of the text and the number of code points before it, and
gives a value and the cursor after it, or the cause of its failure. `NaN`, `Infinity` and
`-Infinity` are values, blanks are the four of the format, and of members with the same name the
last value counts. Two escaped halves of a surrogate pair that stand side by side are one code
point; any other surrogate stays as it is.

There is room for a limited number of levels of nesting. Each array and each object takes one, and
so does a number that is not finite. To tell of a fault takes three, so that close to the limit a
fault goes untold; a missing value is an exception, it is told of at the outermost level.

* `Json.ReadError.within_of_le` — a fault is told of wherever there is room for it.
-/
import RegexAutomata.Json.Numeral
import RegexAutomata.Keyed

namespace RegexAutomata.Json

/-- What is wrong with a text that is no JSON. -/
inductive Fault where
  | expectedValue
  | expectedName
  | expectedColon
  | expectedComma
  | extraData
  | unterminatedString
  | controlCharacter
  | badEscape
  | badUnicodeEscape
deriving DecidableEq

/-- What there was no room for. -/
inductive Exhaustion where
  | array
  | object
  /-- a step of telling of a fault, or a number that is not finite -/
  | call
  /-- a step of telling of a fault that has no name -/
  | unnamed
deriving DecidableEq

/-- Why no value was read. -/
inductive ReadError where
  /-- the text breaks the format at a position -/
  | malformed (fault : Fault) (position : Nat)
  /-- an integer has too many digits -/
  | integerTooLong (digits : Nat)
  /-- the values are nested too deep -/
  | noRoom (what : Exhaustion)
deriving DecidableEq

/-- How many levels it takes to tell of a fault. -/
def tellingRoom : Nat := 3

/-- What becomes of an error where there is room for a number of levels. -/
def ReadError.within (room : Nat) : ReadError → ReadError
  | .malformed fault position =>
    if fault = .expectedValue ∨ tellingRoom ≤ room then .malformed fault position
    else .noRoom (if room = 1 then .unnamed else .call)
  | e => e

theorem ReadError.within_of_le {room : Nat} (h : tellingRoom ≤ room) (e : ReadError) :
    e.within room = e := by
  cases e <;> simp [within, h]

/-- What is left of a text, and how many code points were before it. -/
structure Cursor where
  position : Nat
  rest : Text

namespace Cursor

def next (c : Cursor) : Cursor := ⟨c.position + 1, c.rest.tail⟩

def skip (c : Cursor) (n : Nat) : Cursor := ⟨c.position + n, c.rest.drop n⟩

def at? (c : Cursor) (x : CodePoint) : Bool := c.rest.head? = some x

/-- Whether a code point is a blank of the format. -/
def isBlank (x : CodePoint) : Bool := x = ' ' ∨ x = '\t' ∨ x = '\n' ∨ x = '\r'

def skipBlanks (c : Cursor) : Cursor := go c.position c.rest
where
  go (position : Nat) : Text → Cursor
    | [] => ⟨position, []⟩
    | x :: rest => if isBlank x then go (position + 1) rest else ⟨position, x :: rest⟩

end Cursor

/-- The outcome of reading at a cursor. -/
abbrev Reading (α : Type) := Except ReadError (α × Cursor)

/-- Fails at the position of a cursor. -/
def fault {α : Type} (f : Fault) (position : Nat) : Except ReadError α :=
  .error (.malformed f position)

/-- What a one-letter escape stands for. -/
def escape? (c : CodePoint) : Option CodePoint :=
  if c = '"' ∨ c = '\\' ∨ c = '/' then some c
  else if c = 'b' then some '\x08'
  else if c = 'f' then some '\x0c'
  else if c = 'n' then some '\n'
  else if c = 'r' then some '\r'
  else if c = 't' then some '\t'
  else none

/-- The code point of four hexadecimal digits. -/
def escapedUnit? (a b c d : CodePoint) : Option CodePoint := do
  let a ← Text.hexDigit? a
  let b ← Text.hexDigit? b
  let c ← Text.hexDigit? c
  let d ← Text.hexDigit? d
  CodePoint.ofNat? (a * 4096 + b * 256 + c * 16 + d)

/-- The code point that a surrogate pair stands for. -/
def joinPair? (high low : CodePoint) : Option CodePoint :=
  if high.isHighSurrogate && low.isLowSurrogate then
    CodePoint.ofNat? (0x10000 + (high.value - 0xD800) * 0x400 + (low.value - 0xDC00))
  else none

/-- Reads a string from behind its opening quote. `held` is an escaped code point that the next
escape may be joined to, `done` is what was read before it, in reverse. -/
def stringFrom (opening position : Nat) (held : Option CodePoint) (done : Text) :
    Text → Reading Text
  | [] => fault .unterminatedString opening
  | c :: rest =>
    let all := held.toList ++ done
    if c = '"' then .ok (all.reverse, ⟨position + 1, rest⟩)
    else if c = '\\' then
      match rest with
      | [] => fault .unterminatedString opening
      | e :: rest =>
        if e = 'u' then
          -- the four digits do not end the text, since the string is not closed yet
          match rest with
          | h₁ :: h₂ :: h₃ :: h₄ :: x :: rest =>
            match escapedUnit? h₁ h₂ h₃ h₄ with
            | none => fault .badUnicodeEscape (position + 1)
            | some unit =>
              -- the second half of a pair is joined to the first, which was held back
              match held.bind (joinPair? · unit) with
              | some joined => stringFrom opening (position + 6) none (joined :: done) (x :: rest)
              | none => stringFrom opening (position + 6) (some unit) all (x :: rest)
          | _ => fault .badUnicodeEscape (position + 1)
        else
          match escape? e with
          | none => fault .badEscape position
          | some x => stringFrom opening (position + 2) none (x :: all) rest
    else if c.value ≤ 0x1F then fault .controlCharacter position
    else stringFrom opening (position + 1) none (c :: all) rest

def readString (cursor : Cursor) : Reading Text :=
  stringFrom cursor.position (cursor.position + 1) none [] cursor.rest.tail

/-- Words that stand for values other than numbers. -/
def words : List (Text × Value) :=
  [("null", .null), ("true", .bool true), ("false", .bool false)]

/-- Words that stand for numbers that are not finite. -/
def numberWords : List (Text × Value) :=
  [("NaN", .real .nan), ("Infinity", .real (.infinite false)),
    ("-Infinity", .real (.infinite true))]

/-- Reads one of some words, if the rest starts with it. -/
def readWord? (words : List (Text × Value)) (cursor : Cursor) : Option (Value × Cursor) :=
  (words.find? fun (word, _) => word.isPrefixOf cursor.rest).map fun (word, value) =>
    (value, cursor.skip word.length)

def readNumeral (cursor : Cursor) : Reading Value :=
  match Numeral.read? cursor.rest with
  | none => fault .expectedValue cursor.position
  | some (n, rest) =>
    let after := ⟨cursor.position + n.width, rest⟩
    if !n.isInteger then .ok (.real (.ofDecimal n.toDecimal), after)
    else if Numeral.maxIntegerDigits < n.whole.length then
      .error (.integerTooLong n.whole.length)
    else .ok (.integer n.toInt, after)

/-- Reads a word or a number. -/
def readScalar (room : Nat) (cursor : Cursor) : Reading Value :=
  match readWord? words cursor, readWord? numberWords cursor with
  | some found, _ => .ok found
  -- words for numbers that are not finite are read by a call, which needs room of its own
  | none, some found => if room = 0 then .error (.noRoom .call) else .ok found
  | none, none => readNumeral cursor

/-- Reads the items of an array from the first one on, to the closing bracket. -/
def readItems (item : Cursor → Reading Value) :
    Nat → List Value → Cursor → Except ReadError (Value × Cursor)
  | 0, _, cursor => fault .expectedValue cursor.position
  | fuel + 1, done, cursor => do
    let (value, cursor) ← item cursor
    let cursor := cursor.skipBlanks
    if cursor.at? ']' then .ok (.array (value :: done).reverse, cursor.next)
    else if cursor.at? ',' then readItems item fuel (value :: done) cursor.next.skipBlanks
    else fault .expectedComma cursor.position

/-- Reads the members of an object from the first one on, to the closing brace. -/
def readMembers (item : Cursor → Reading Value) :
    Nat → List (Text × Value) → Cursor → Except ReadError (Value × Cursor)
  | 0, _, cursor => fault .expectedValue cursor.position
  | fuel + 1, done, cursor => do
    if !cursor.at? '"' then fault .expectedName cursor.position
    else
      let (name, cursor) ← readString cursor
      let cursor := cursor.skipBlanks
      if !cursor.at? ':' then fault .expectedColon cursor.position
      else
        let (value, cursor) ← item cursor.next.skipBlanks
        let done := Keyed.put Prod.fst (name, value) done
        let cursor := cursor.skipBlanks
        if cursor.at? '}' then .ok (.object done, cursor.next)
        else if cursor.at? ',' then readMembers item fuel done cursor.next.skipBlanks
        else fault .expectedComma cursor.position

/-- Reads a value that contains no other. -/
def readLeaf (room : Nat) (cursor : Cursor) : Reading Value :=
  (if cursor.at? '"' then (readString cursor).map fun (t, cursor) => (.string t, cursor)
    else readScalar room cursor).mapError (·.within room)

/-- Reads a value. `size` bounds the number of items of an array and of members of an object, the
last number is the room for nesting. -/
def readValue (size : Nat) : Nat → Cursor → Reading Value
  | 0, cursor =>
    if cursor.at? '[' then .error (.noRoom .array)
    else if cursor.at? '{' then .error (.noRoom .object)
    else readLeaf 0 cursor
  | room + 1, cursor =>
    if cursor.at? '[' then
      let inside := cursor.next.skipBlanks
      if inside.at? ']' then .ok (.array [], inside.next)
      else (readItems (readValue size room) size [] inside).mapError (·.within room)
    else if cursor.at? '{' then
      let inside := cursor.next.skipBlanks
      if inside.at? '}' then .ok (.object [], inside.next)
      else (readMembers (readValue size room) size [] inside).mapError (·.within room)
    else readLeaf (room + 1) cursor

/-- Reads a text that holds one value, with room for a number of levels of nesting. -/
def read (room : Nat) (t : Text) : Except ReadError Value := do
  let (value, cursor) ← readValue (t.length + 1) room (Cursor.skipBlanks ⟨0, t⟩)
  let cursor := cursor.skipBlanks
  if cursor.rest.isEmpty then .ok value else fault .extraData cursor.position

namespace Fault

def message : Fault → Text
  | expectedValue => "Expecting value"
  | expectedName => "Expecting property name enclosed in double quotes"
  | expectedColon => "Expecting ':' delimiter"
  | expectedComma => "Expecting ',' delimiter"
  | extraData => "Extra data"
  | unterminatedString => "Unterminated string starting at"
  | controlCharacter => "Invalid control character at"
  | badEscape => "Invalid \\escape"
  | badUnicodeEscape => "Invalid \\uXXXX escape"

/-- A fault with its place in the document: the line, the column in it, and the position. -/
def describe (f : Fault) (document : Text) (position : Nat) : Text :=
  let before := document.take position
  let line := before.count (CodePoint.ofChar '\n') + 1
  let column := (before.reverse.takeWhile (· ≠ CodePoint.ofChar '\n')).length + 1
  f.message ++ ": line " ++ Text.ofNat line ++ " column " ++ Text.ofNat column
    ++ " (char " ++ Text.ofNat position ++ ")"

end Fault

/-- What is said where there was no room. -/
def Exhaustion.message (what : Exhaustion) : Text :=
  let task : Text :=
    match what with
    | .array => " while decoding a JSON array from a unicode string"
    | .object => " while decoding a JSON object from a unicode string"
    | .call => " while calling a Python object"
    | .unnamed => ""
  "maximum recursion depth exceeded" ++ task

end RegexAutomata.Json
