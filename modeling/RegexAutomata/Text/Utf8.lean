/-
UTF-8.

Decoding stops at the first byte that cannot continue: a sequence with a byte that does not belong
to it ends before that byte. Surrogates are encoded like other code points of three bytes; whether
they are accepted is the caller's choice.
-/
import RegexAutomata.Text.DecodeError

namespace RegexAutomata.Utf8

/-- How many bytes a sequence has, by its first byte. -/
inductive Lead where
  | one
  | two
  | three
  | four
  | invalid
deriving DecidableEq

/-- The kind of a first byte. The bytes `C0`, `C1` and those from `F5` on start nothing. -/
def lead (b : UInt8) : Lead :=
  if b < 0x80 then .one
  else if 0xC2 ≤ b && b < 0xE0 then .two
  else if 0xE0 ≤ b && b < 0xF0 then .three
  else if 0xF0 ≤ b && b < 0xF5 then .four
  else .invalid

/-- Whether a byte can stand inside a sequence. -/
def isContinuation (b : UInt8) : Bool := 0x80 ≤ b && b < 0xC0

/-- Whether a byte can be the second of a sequence of three or four: not all continuations give a
code point that needs as many bytes and exists. -/
def isSecond (surrogates : Bool) (first b : UInt8) : Bool :=
  isContinuation b &&
    (if first = 0xE0 then 0xA0 ≤ b
    else if first = 0xED then b < 0xA0 || surrogates
    else if first = 0xF0 then 0x90 ≤ b
    else if first = 0xF4 then b < 0x90
    else true)

/-- Whether the second byte of a sequence makes it a surrogate. -/
def startsSurrogate (first b : UInt8) : Bool := first = 0xED && 0xA0 ≤ b

def point (n : Nat) : CodePoint := (CodePoint.ofNat? n).getD default

/-- The last six bits of a byte. -/
def low (b : UInt8) : Nat := b.toNat % 64

/-- Decodes bytes from a position on; `done` is what was decoded before, in reverse. -/
def decodeFrom (surrogates : Bool) (position : Nat) (done : Text) : Bytes → Except DecodeError Text
  | [] => .ok done.reverse
  | b :: rest =>
    let bad (fault : DecodeFault) (length : Nat) : Except DecodeError Text :=
      .error ⟨.utf8, fault, position, length, b⟩
    let continue₁ := bad .invalidContinuation 1
    match lead b with
    | .invalid => bad .invalidStart 1
    | .one => decodeFrom surrogates (position + 1) (point b.toNat :: done) rest
    | .two =>
      match rest with
      | [] => bad .unexpectedEnd 1
      | c :: rest =>
        if isContinuation c then
          decodeFrom surrogates (position + 2) (point (b.toNat % 32 * 64 + low c) :: done) rest
        else continue₁
    | .three =>
      match rest with
      | [] => bad .unexpectedEnd 1
      | c :: rest =>
        if !isSecond surrogates b c then continue₁
        else
          match rest with
          -- a surrogate is refused at its second byte, though the third may be missing too
          | [] => if startsSurrogate b c then continue₁ else bad .unexpectedEnd 2
          | d :: rest =>
            if isContinuation d then
              decodeFrom surrogates (position + 3)
                (point (b.toNat % 16 * 4096 + low c * 64 + low d) :: done) rest
            else if startsSurrogate b c then continue₁
            else bad .invalidContinuation 2
    | .four =>
      match rest with
      | [] => bad .unexpectedEnd 1
      | c :: rest =>
        if !isSecond surrogates b c then continue₁
        else
          match rest with
          | [] => bad .unexpectedEnd 2
          | d :: rest =>
            if !isContinuation d then bad .invalidContinuation 2
            else
              match rest with
              | [] => bad .unexpectedEnd 3
              | e :: rest =>
                if isContinuation e then
                  decodeFrom surrogates (position + 4)
                    (point (b.toNat % 8 * 262144 + low c * 4096 + low d * 64 + low e) :: done) rest
                else bad .invalidContinuation 3

def decode (surrogates : Bool) (bytes : Bytes) : Except DecodeError Text :=
  decodeFrom surrogates 0 [] bytes

def encodePoint (c : CodePoint) : Bytes :=
  let n := c.value
  let inner (k : Nat) : UInt8 := .ofNat (0x80 + k % 64)
  if n < 0x80 then [.ofNat n]
  else if n < 0x800 then [.ofNat (0xC0 + n / 64), inner n]
  else if n < 0x10000 then [.ofNat (0xE0 + n / 4096), inner (n / 64), inner n]
  else [.ofNat (0xF0 + n / 262144), inner (n / 4096), inner (n / 64), inner n]

def encode (t : Text) : Bytes := t.flatMap encodePoint

/-- The first run of surrogates in a text, as its place, its length and its first code point. -/
def firstSurrogates? (t : Text) : Option (Nat × Nat × CodePoint) :=
  match t.span fun c => !c.isSurrogate with
  | (_, []) => none
  | (before, c :: rest) =>
    some (before.length, (c :: rest).takeWhile CodePoint.isSurrogate |>.length, c)

/-- What is said of a text with surrogates where none are allowed. -/
def surrogatesRefused (position length : Nat) (first : CodePoint) : Text :=
  let place : Text :=
    if length = 1 then
      "character '\\u" ++ Text.hex 4 first.value ++ "' in position " ++ Text.ofNat position
    else
      "characters in position " ++ Text.ofNat position ++ "-" ++ Text.ofNat (position + length - 1)
  "'utf-8' codec can't encode " ++ place ++ ": surrogates not allowed"

end RegexAutomata.Utf8
