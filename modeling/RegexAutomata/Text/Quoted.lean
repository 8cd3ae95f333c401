/-
Quoted text.

A text is written between single quotes, or between double quotes if it holds a single quote and no
double quote. A backslash stands before the quote in use and before a backslash, line feed, carriage
return and tab have escapes of one letter, and any other code point that is not printable is written
in hexadecimal digits, as few of two, four and eight as hold it.
-/
import RegexAutomata.Text.Printable

namespace RegexAutomata.Text

/-- The quote that a text is put between. -/
def quoteMark (t : Text) : CodePoint :=
  if t.contains (CodePoint.ofChar '\x27') && !t.contains (CodePoint.ofChar '"') then '"'
  else '\x27'

/-- A code point in hexadecimal digits, behind a letter that tells their number. -/
def hexEscape (c : CodePoint) : Text :=
  if c.value ≤ 0xFF then CodePoint.ofChar '\\' :: CodePoint.ofChar 'x' :: hex 2 c.value
  else if c.value ≤ 0xFFFF then CodePoint.ofChar '\\' :: CodePoint.ofChar 'u' :: hex 4 c.value
  else CodePoint.ofChar '\\' :: CodePoint.ofChar 'U' :: hex 8 c.value

/-- How a code point is written between quotes of a given kind. -/
def quotedPoint (mark c : CodePoint) : Text :=
  if c = mark ∨ c = '\\' then [CodePoint.ofChar '\\', c]
  else if c = '\n' then "\\n"
  else if c = '\r' then "\\r"
  else if c = '\t' then "\\t"
  else if c.isPrintable then [c]
  else hexEscape c

def quoted (t : Text) : Text :=
  let mark := quoteMark t
  mark :: (t.flatMap (quotedPoint mark) ++ [mark])

end RegexAutomata.Text
