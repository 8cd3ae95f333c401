/-
What can be wrong with encoded text.
-/
import RegexAutomata.Text.CodePoint

namespace RegexAutomata

abbrev Bytes := List UInt8

/-- The forms in which text is stored in bytes. -/
inductive Encoding where
  | utf8
  | utf16 (bigEndian : Bool)
  | utf32 (bigEndian : Bool)
deriving DecidableEq

def Encoding.name : Encoding → Text
  | utf8 => "utf-8"
  | utf16 bigEndian => if bigEndian then "utf-16-be" else "utf-16-le"
  | utf32 bigEndian => if bigEndian then "utf-32-be" else "utf-32-le"

/-- What is wrong with some bytes. -/
inductive DecodeFault where
  | invalidStart
  | invalidContinuation
  | unexpectedEnd
  | truncated
  | outOfRange
deriving DecidableEq

def DecodeFault.message : DecodeFault → Text
  | invalidStart => "invalid start byte"
  | invalidContinuation => "invalid continuation byte"
  | unexpectedEnd => "unexpected end of data"
  | truncated => "truncated data"
  | outOfRange => "code point not in range(0x110000)"

/-- Bytes that encode no text: the place of the first bad ones, how many they are, and the first. -/
structure DecodeError where
  encoding : Encoding
  fault : DecodeFault
  position : Nat
  length : Nat
  first : UInt8
deriving DecidableEq

def DecodeError.message (e : DecodeError) : Text :=
  let place : Text :=
    if e.length = 1 then
      "byte 0x" ++ Text.hex 2 e.first.toNat ++ " in position " ++ Text.ofNat e.position
    else
      "bytes in position " ++ Text.ofNat e.position ++ "-"
        ++ Text.ofNat (e.position + e.length - 1)
  "'" ++ e.encoding.name ++ "' codec can't decode " ++ place ++ ": " ++ e.fault.message

end RegexAutomata
