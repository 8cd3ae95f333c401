/-
Request targets.

A target is split into a path and a query; a scheme and a fragment are dropped, and so is a host
once it is checked. Escapes in the path are decoded, and the path is compared with the known ones as
bytes. The query is written again, with all but a few ASCII characters escaped, where a client is
sent to another path.
-/
import RegexAutomata.Service.Host
import RegexAutomata.Text.Utf8

namespace RegexAutomata.Service

/-- Path and query of a request. -/
structure Target where
  path : Bytes
  query : Text
deriving DecidableEq

namespace Target

/-- Cuts a text before the first code point with a property. -/
def cutBefore (p : CodePoint → Bool) (t : Text) : Text × Text := t.span fun c => !p c

/-- Whether a code point may stand in a scheme. -/
def isSchemePoint (c : CodePoint) : Bool :=
  c.isLetter || c.isDigit || c = '+' || c = '-' || c = '.'

def dropScheme (t : Text) : Text :=
  match Text.cut? (CodePoint.ofChar ':') t with
  | some (c :: scheme, rest) => if c.isLetter && scheme.all isSchemePoint then rest else t
  | _ => t

/-- The host behind two slashes and the text behind it. Without two slashes the host is empty. -/
def cutHost (t : Text) : Text × Text :=
  if (Text.ofString "//").isPrefixOf t then
    cutBefore (fun c => c = '/' || c = '?' || c = '#') (t.drop 2)
  else ([], t)

/-- The bytes of a text in which escapes of two hexadecimal digits are decoded. -/
def decodePath : Text → Bytes
  | c :: h :: l :: rest =>
    match Text.hexDigit? h, Text.hexDigit? l with
    | some a, some b =>
      if c = '%' then .ofNat (16 * a + b) :: decodePath rest
      else Utf8.encodePoint c ++ decodePath (h :: l :: rest)
    | _, _ => Utf8.encodePoint c ++ decodePath (h :: l :: rest)
  | c :: rest => Utf8.encodePoint c ++ decodePath rest
  | [] => []

/-- Reads a target. Blanks and control characters before it and line ends in it do not count. -/
def read (t : Text) : Except HostError Target := do
  let t := (t.dropWhile fun c => c.value ≤ 0x20).filter fun (c : CodePoint) =>
    c ≠ '\t' && c ≠ '\n' && c ≠ '\r'
  let (host, t) := cutHost (dropScheme t)
  Host.check host
  let (t, _) := cutBefore (· = CodePoint.ofChar '#') t
  let (path, query) := cutBefore (· = CodePoint.ofChar '?') t
  return ⟨decodePath path, query.tail⟩

/-- Whether a byte is written as it is in a query. -/
def isPlainByte (b : UInt8) : Bool :=
  let c := Utf8.point b.toNat
  c.isLetter || c.isDigit
    || (Text.ofString "_.-~/#%[]=:;$&()+,!?*@\x27").contains c

def escapeByte (b : UInt8) : Text :=
  let digit (n : Nat) : CodePoint := .ofChar (Nat.digitChar n).toUpper
  [CodePoint.ofChar '%', digit (b.toNat / 16), digit (b.toNat % 16)]

/-- The written form of a query. Each byte of the query counts as a code point of its own. -/
def writeQuery (query : Text) : Text :=
  (Utf8.encode query).flatMap fun b =>
    if isPlainByte b then [Utf8.point b.toNat]
    else (Utf8.encodePoint (Utf8.point b.toNat)).flatMap escapeByte

end Target

end RegexAutomata.Service
