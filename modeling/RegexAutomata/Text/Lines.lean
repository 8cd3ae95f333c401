/-
Lines of text.

Line ends of files are first made uniform. Lines are then parted by any of the separators; a
separator at the end starts no further line.

* `Text.splitLines_noSeparator` — no line holds a separator.
-/
import RegexAutomata.Text.CodePoint

namespace RegexAutomata.Text

/-- A step of making line ends uniform; the flag tells that a carriage return was just replaced. -/
def uniformStep : Bool × Text → CodePoint → Bool × Text
  | (afterReturn, done), c =>
    if c = '\r' then (true, CodePoint.ofChar '\n' :: done)
    else if afterReturn && c = '\n' then (false, done)
    else (false, c :: done)

/-- The text with a line feed for each carriage return, and one for both together. -/
def uniformLineEnds (t : Text) : Text := (t.foldl uniformStep (false, [])).2.reverse

/-- The code points that part lines. -/
def isLineSeparator (c : CodePoint) : Bool :=
  (0x0A ≤ c.value && c.value ≤ 0x0D) || (0x1C ≤ c.value && c.value ≤ 0x1E) || c.value = 0x85
    || c.value = 0x2028 || c.value = 0x2029

/-- Puts a code point before lines: a separator starts a line, another one joins the first line. -/
def consLine (c : CodePoint) (lines : List Text) : List Text :=
  if isLineSeparator c then [] :: lines
  else
    match lines with
    | [] => [[c]]
    | line :: rest => (c :: line) :: rest

def splitLines (t : Text) : List Text := t.foldr consLine []

theorem splitLines_noSeparator {t line : Text} (h : line ∈ splitLines t) :
    ∀ c ∈ line, isLineSeparator c = false := by
  induction t generalizing line with
  | nil => simp [splitLines] at h
  | cons c t ih =>
    simp only [splitLines, List.foldr_cons] at h
    rw [← splitLines] at h
    unfold consLine at h
    split at h
    · rcases List.mem_cons.mp h with rfl | h
      · simp
      · exact ih h
    · next hc =>
      split at h
      · simp_all
      · next first rest hl =>
        rcases List.mem_cons.mp h with rfl | h
        · intro d hd
          rcases List.mem_cons.mp hd with rfl | hd
          · simpa using hc
          · exact ih (by rw [hl]; exact List.mem_cons_self) d hd
        · exact ih (by rw [hl]; exact List.mem_cons_of_mem _ h)

end RegexAutomata.Text
