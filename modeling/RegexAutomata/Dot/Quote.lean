/-
Quoting in drawing text.

A name or a number is written as it is, unless it is a keyword; all else is written between double
quotes, where a quote has a backslash before it. An odd backslash before a quote counts as that
backslash; the other backslashes stay. A text in angle brackets is markup and is written as it is.
Labels of edges have all backslashes doubled first and are never markup.

A name, a number and a piece of markup may end with one line feed.
-/
import RegexAutomata.Text.CodePoint

namespace RegexAutomata.Dot

def dropFinalNewline (t : Text) : Text :=
  if t.getLast? = some (CodePoint.ofChar '\n') then t.dropLast else t

/-- Whether a code point may stand in a name, except for digits. -/
def isNameStart (c : CodePoint) : Bool := c.isLetter || c = '_'

/-- Whether a text is a name: letters, digits and underscores, not starting with a digit. -/
def isName : Text → Bool
  | [] => false
  | c :: rest => isNameStart c && rest.all fun d => isNameStart d || d.isDigit

/-- Whether a text is an unsigned number: digits with at most one point, and a digit before the
point or after it. -/
def isUnsigned (t : Text) : Bool :=
  match t.span CodePoint.isDigit with
  | (_ :: _, []) => true
  | (whole, c :: fraction) =>
    c = '.' && fraction.all CodePoint.isDigit && !(whole.isEmpty && fraction.isEmpty)
  | ([], []) => false

/-- Whether a text is a number, with or without a minus sign. -/
def isNumber : Text → Bool
  | [] => false
  | c :: rest => if c = '-' then isUnsigned rest else isUnsigned (c :: rest)

/-- Words that have a meaning of their own, in small letters. -/
def keywords : List Text :=
  ["node", "edge", "graph", "digraph", "subgraph", "strict"]

/-- Whether a text needs no quotes. -/
def isPlain (t : Text) : Bool :=
  let body := dropFinalNewline t
  (isName body || isNumber body) && !keywords.contains (t.map CodePoint.toLower)

/-- Whether a text is markup: it stands in angle brackets. -/
def isMarkup (t : Text) : Bool :=
  let body := dropFinalNewline t
  body.head? = some (CodePoint.ofChar '<') && body.tail.getLast? = some (CodePoint.ofChar '>')

/-- Puts a backslash before each quote. The number counts the backslashes just passed, which are not
yet written. -/
def escapeQuotes : Nat → Text → Text
  | k, [] => List.replicate k (CodePoint.ofChar '\\')
  | k, c :: rest =>
    if c = '\\' then escapeQuotes (k + 1) rest
    else if c = '"' then
      List.replicate (2 * (k / 2) + 1) (CodePoint.ofChar '\\') ++ c :: escapeQuotes 0 rest
    else List.replicate k (CodePoint.ofChar '\\') ++ c :: escapeQuotes 0 rest

def inQuotes (t : Text) : Text :=
  CodePoint.ofChar '"' :: (escapeQuotes 0 t ++ [CodePoint.ofChar '"'])

/-- The written form of a text that is never markup. -/
def quotePlain (t : Text) : Text := if isPlain t then t else inQuotes t

/-- The written form of a text that may be markup. -/
def quote (t : Text) : Text := if isMarkup t then t else quotePlain t

def doubleBackslashes (t : Text) : Text :=
  t.flatMap fun (c : CodePoint) => if c = '\\' then [c, c] else [c]

/-- The written form of a label of an edge. -/
def quoteLabel (t : Text) : Text := quotePlain (doubleBackslashes t)

end RegexAutomata.Dot
