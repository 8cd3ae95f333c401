/-
Paths of files.

Empty segments and single dots say nothing and are dropped when a path is read; two dots stay. A
path that begins with exactly two slashes keeps both, more of them count as one, and a path that
says nothing is written as a single dot.

* `Path.segments_read` — no segment of a path that was read is empty or a single dot.
-/
import RegexAutomata.Text.CodePoint

namespace RegexAutomata.Command

/-- A path: how many slashes it begins with, and its segments. -/
structure Path where
  leading : Nat
  segments : List Text
deriving DecidableEq

namespace Path

def ofName (name : Text) : Path := ⟨0, [name]⟩

/-- How many slashes are kept of those at the beginning. -/
def leadingOf (t : Text) : Nat :=
  match (t.takeWhile (· = CodePoint.ofChar '/')).length with
  | 0 => 0
  | 2 => 2
  | _ => 1

/-- Whether a segment says anything. -/
def isProper (segment : Text) : Bool := segment ≠ "" && segment ≠ "."

/-- The path that a text tells. -/
def read (t : Text) : Path := ⟨leadingOf t, (Text.splitOn '/' t).filter isProper⟩

def write (p : Path) : Text :=
  match List.replicate p.leading (CodePoint.ofChar '/') ++ Text.join "/" p.segments with
  | [] => "."
  | t => t

/-- Whether a path holds the code point zero, which no name of a file can. -/
def holdsNull (p : Path) : Bool := p.segments.any fun s => s.any fun c => c.value = 0

theorem segments_read {t segment : Text} (h : segment ∈ (read t).segments) :
    segment ≠ [] ∧ segment ≠ Text.ofString "." := by
  have h := (List.mem_filter.mp h).2
  simpa [isProper, Text.ofString] using h

end Path

end RegexAutomata.Command
