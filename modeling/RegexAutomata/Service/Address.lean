/-
Addresses of hosts.

An address of version four is four numbers below 256. One of version six is eight groups of sixteen
bits in hexadecimal digits; two colons stand for at least one group of zeros, the last two groups
may be written as an address of version four, and a zone may follow. An address of a later version
begins with that version.

* `Address.eq_of_cutGap` — a gap is cut out of a text and nothing else.
-/
import RegexAutomata.Text.CodePoint

namespace RegexAutomata.Service.Address

/-- Whether a text is a number below 256, in digits without a needless zero. -/
def isOctet (t : Text) : Bool :=
  !t.isEmpty && t.all CodePoint.isDigit && (t.length = 1 || t.head? ≠ some '0')
    && t.length ≤ 3 && t.foldl (fun n c => 10 * n + (c.value - 0x30)) 0 ≤ 255

def isVersion4 (t : Text) : Bool :=
  let octets := Text.splitOn '.' t
  octets.length = 4 && octets.all isOctet

def isHexDigit (c : CodePoint) : Bool := (Text.hexDigit? c).isSome

/-- Whether a text is a group of sixteen bits. -/
def isGroup (t : Text) : Bool := !t.isEmpty && t.all isHexDigit && t.length ≤ 4

/-- How many groups a text holds, if it is groups with colons between them. -/
def groups? (t : Text) : Option Nat :=
  let groups := Text.splitOn ':' t
  if t.isEmpty then some 0
  else if groups.all isGroup then some groups.length
  else none

/-- How many groups a text holds if an address of version four may be its last two. -/
def lastGroups? (t : Text) : Option Nat :=
  let groups := Text.splitOn ':' t
  if groups.getLast?.any isVersion4 && groups.dropLast.all isGroup then some (groups.length + 1)
  else groups? t

/-- The text before the first two colons in a row and the text after them. -/
def cutGap? : Text → Option (Text × Text)
  | c :: d :: rest =>
    if c = ':' ∧ d = ':' then some ([], rest)
    else (cutGap? (d :: rest)).map fun (before, after) => (c :: before, after)
  | _ => none

theorem eq_of_cutGap {t before after : Text} (h : cutGap? t = some (before, after)) :
    t = before ++ ("::" : Text) ++ after := by
  fun_induction cutGap? t generalizing before with
  | case1 c d rest hc =>
    obtain ⟨rfl, rfl⟩ := hc
    simp only [Option.some.injEq, Prod.mk.injEq] at h
    obtain ⟨rfl, rfl⟩ := h
    rfl
  | case2 c d rest hc ih =>
    obtain ⟨⟨b, a⟩, hcut, heq⟩ := Option.map_eq_some_iff.mp h
    simp only [Prod.mk.injEq] at heq
    obtain ⟨rfl, rfl⟩ := heq
    simp [ih hcut]
  | case3 => simp at h

/-- Whether a text is an address of version six without a zone. -/
def isUnzoned (t : Text) : Bool :=
  match cutGap? t with
  | some (before, after) =>
    match groups? before, lastGroups? after with
    | some m, some n => m + n ≤ 7
    | _, _ => false
  | none => lastGroups? t = some 8

def isVersion6 (t : Text) : Bool :=
  match Text.cut? '%' t with
  | some (address, zone) =>
    isUnzoned address && !zone.isEmpty && !zone.contains (CodePoint.ofChar '%')
  | none => isUnzoned t

/-- Whether a text is an address of a later version: the letter `v`, the version in hexadecimal
digits, a dot and something behind it. -/
def isLater : Text → Bool
  | [] => false
  | c :: rest =>
    let (version, behind) := rest.span isHexDigit
    c = 'v' && !version.isEmpty && behind.head? = some '.' && 1 < behind.length

end RegexAutomata.Service.Address
