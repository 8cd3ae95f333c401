/-
Telling encodings apart, and decoding.

An encoding is told from a mark at the start or, without one, from the places of zero bytes among
the first four: the text is assumed to start with two ASCII characters. All encodings accept lone
surrogates here.
-/
import RegexAutomata.Text.Utf8

namespace RegexAutomata

namespace Encoding

/-- The encoding of some bytes and the length of the mark at their start. -/
def detect (bytes : Bytes) : Encoding × Nat :=
  if [0x00, 0x00, 0xFE, 0xFF].isPrefixOf bytes then (utf32 true, 4)
  else if [0xFF, 0xFE, 0x00, 0x00].isPrefixOf bytes then (utf32 false, 4)
  else if [0xFE, 0xFF].isPrefixOf bytes then (utf16 true, 2)
  else if [0xFF, 0xFE].isPrefixOf bytes then (utf16 false, 2)
  else if [0xEF, 0xBB, 0xBF].isPrefixOf bytes then (utf8, 3)
  else
    -- without a mark, zero bytes tell where the first ASCII character ends
    match bytes with
    | b₀ :: b₁ :: b₂ :: b₃ :: _ =>
      if b₀ = 0 then (if b₁ = 0 then utf32 true else utf16 true, 0)
      else if b₁ = 0 then (if b₂ = 0 ∧ b₃ = 0 then utf32 false else utf16 false, 0)
      else (utf8, 0)
    | [b₀, b₁] => (if b₀ = 0 then utf16 true else if b₁ = 0 then utf16 false else utf8, 0)
    | _ => (utf8, 0)

/-- The number that bytes stand for. -/
def unit (bigEndian : Bool) (bytes : Bytes) : Nat :=
  (if bigEndian then bytes else bytes.reverse).foldl (fun n b => 256 * n + b.toNat) 0

/-- Puts a unit of sixteen bits before text that was read, in reverse; two halves of a pair are
joined. -/
def pushUnit (done : Text) (n : Nat) : Text :=
  let c := Utf8.point n
  match done with
  | high :: rest =>
    if high.isHighSurrogate && c.isLowSurrogate then
      Utf8.point (0x10000 + (high.value - 0xD800) * 0x400 + (n - 0xDC00)) :: rest
    else c :: done
  | [] => [c]

/-- Decodes units of sixteen bits from a position on. -/
def decodeUnits16 (bigEndian : Bool) (position : Nat) (done : Text) :
    Bytes → Except DecodeError Text
  | b₀ :: b₁ :: rest =>
    decodeUnits16 bigEndian (position + 2) (pushUnit done (unit bigEndian [b₀, b₁])) rest
  | [b] => .error ⟨.utf16 bigEndian, .truncated, position, 1, b⟩
  | [] => .ok done.reverse

/-- Decodes units of thirty-two bits from a position on. -/
def decodeUnits32 (bigEndian : Bool) (position : Nat) (done : Text) :
    Bytes → Except DecodeError Text
  | b₀ :: b₁ :: b₂ :: b₃ :: rest =>
    match CodePoint.ofNat? (unit bigEndian [b₀, b₁, b₂, b₃]) with
    | some c => decodeUnits32 bigEndian (position + 4) (c :: done) rest
    | none => .error ⟨.utf32 bigEndian, .outOfRange, position, 4, b₀⟩
  | b :: rest => .error ⟨.utf32 bigEndian, .truncated, position, rest.length + 1, b⟩
  | [] => .ok done.reverse

/-- The text that bytes encode in an encoding of their own choice. Positions of faults count the
mark of the encodings with larger units. -/
def decodeAny (bytes : Bytes) : Except DecodeError Text :=
  match detect bytes with
  | (utf8, mark) => Utf8.decode true (bytes.drop mark)
  | (utf16 bigEndian, mark) => decodeUnits16 bigEndian mark [] (bytes.drop mark)
  | (utf32 bigEndian, mark) => decodeUnits32 bigEndian mark [] (bytes.drop mark)

end Encoding

end RegexAutomata
