/-
Hosts of targets.

Brackets in a host have an address of version six, or of a later one, between them. Some code points
have a separator in their compatibility form; a host must not hold one.

* `Host.check_of_ascii` — an ASCII host is refused only for its brackets.
-/
import RegexAutomata.Service.Address
import RegexAutomata.Text.Quoted

namespace RegexAutomata.Service

/-- What is wrong with a host. -/
inductive HostError where
  /-- a bracket of one kind without one of the other -/
  | loneBracket
  /-- no address of a later version, though it begins like one -/
  | laterVersion
  /-- an address of version four in brackets -/
  | version4
  | noAddress (t : Text)
  /-- a code point that stands for a separator -/
  | separator (host : Text)
deriving DecidableEq

def HostError.message : HostError → Text
  | loneBracket => "Invalid IPv6 URL"
  | laterVersion => "IPvFuture address is invalid"
  | version4 => "An IPv4 address cannot be in brackets"
  | noAddress t => t.quoted ++ " does not appear to be an IPv4 or IPv6 address"
  | separator host =>
    "netloc '" ++ host ++ "' contains invalid characters under NFKC normalization"

namespace Host

/-- The numbers of the code points whose compatibility form holds a slash, question mark, number
sign, at sign or colon, those signs apart. -/
def separators : List Nat :=
  [0x2047, 0x2048, 0x2049, 0x2100, 0x2101, 0x2105, 0x2106, 0x2A74, 0xFE13, 0xFE16, 0xFE55, 0xFE56,
    0xFE5F, 0xFE6B, 0xFF03, 0xFF0F, 0xFF1A, 0xFF1F, 0xFF20]

/-- Checks the text between brackets. -/
def checkAddress (t : Text) : Except HostError Unit :=
  if t.head? = some 'v' then
    if Address.isLater t then .ok () else .error .laterVersion
  else if Address.isVersion4 t then .error .version4
  else if Address.isVersion6 t then .ok ()
  else .error (.noAddress t)

/-- The text behind the first opening bracket, up to a closing one. -/
def bracketed (host : Text) : Text :=
  let behind : Text := host.dropWhile (· ≠ CodePoint.ofChar '[') |>.tail
  behind.takeWhile (· ≠ CodePoint.ofChar ']')

/-- Checks the brackets of a host. -/
def checkBrackets (host : Text) : Except HostError Unit :=
  match host.contains (CodePoint.ofChar '['), host.contains (CodePoint.ofChar ']') with
  | true, true => checkAddress (bracketed host)
  | false, false => .ok ()
  | _, _ => .error .loneBracket

def check (host : Text) : Except HostError Unit := do
  checkBrackets host
  if host.any fun c => separators.contains c.value then .error (.separator host)

theorem check_of_ascii {host : Text} (h : ∀ c ∈ host, c.value < 0x80) :
    check host = checkBrackets host := by
  have hs : (host.any fun c => separators.contains c.value) = false := by
    have hlarge : ∀ n ∈ separators, 0x80 ≤ n := by decide
    simp only [List.any_eq_false, List.contains_eq_mem, decide_eq_true_eq]
    intro c hc hmem
    exact absurd (h c hc) (Nat.not_lt.mpr (hlarge _ hmem))
  simp only [check, hs, Bool.false_eq_true, ↓reduceIte, pure, Except.pure]
  cases checkBrackets host <;> rfl

end Host

end RegexAutomata.Service
