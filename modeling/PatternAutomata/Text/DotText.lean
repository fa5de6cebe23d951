import PatternAutomata.Text

/-!
# Identifiers of the DOT language

An identifier of the graph language DOT stands for itself if it is a word or a numeral and no
keyword, or if it is set in angle brackets; any other text stands between double quotes.  In quotes
only a quotation mark needs an escape, and one that already has a backslash of its own in front is
left alone.  A line feed at the very end is disregarded when the form of a text is judged.

* `DotText.isWord`, `DotText.isNumeral`, `DotText.isBracketed`, `DotText.isKeyword` — the forms;
* `DotText.identifier` — a text as an identifier.
-/

namespace PatternAutomata

namespace DotText

/-- A letter of ASCII or an underscore. -/
def isWordStart (c : Char) : Bool := c.isAlpha || c = '_'

/-- Whether a text is a letter or underscore followed by letters, digits and underscores. -/
def isWord : Text → Bool
  | [] => false
  | c :: rest => isWordStart c && rest.all fun d => isWordStart d || d.isDigit

/-- Whether a text is a numeral without sign: digits with at most one point among them or beside
them, and a digit at the start or directly after the point. -/
def isUnsigned (t : Text) : Bool :=
  match t.dropWhile Char.isDigit with
  | [] => !t.isEmpty
  | c :: rest =>
    c = '.' && rest.all Char.isDigit && !((t.takeWhile Char.isDigit).isEmpty && rest.isEmpty)

/-- Whether a text is a numeral, with a minus sign or without. -/
def isNumeral : Text → Bool
  | '-' :: rest => isUnsigned rest
  | t => isUnsigned t

/-- Whether a text starts with `<` and ends with another character, `>`. -/
def isBracketed : Text → Bool
  | '<' :: rest => rest.getLast? = some '>'
  | _ => false

/-- The words that mean something in the language, in lower case. -/
def keywords : List Text :=
  ["node".toList, "edge".toList, "graph".toList, "digraph".toList, "subgraph".toList,
    "strict".toList]

/-- Whether a text is a keyword, in capitals or not. -/
def isKeyword (t : Text) : Bool := t.map Char.toLower ∈ keywords

/-- A text without a line feed at its end. -/
def withoutFinalBreak (t : Text) : Text :=
  if t.getLast? = some '\n' then t.dropLast else t

/-- A text in which every quotation mark has an odd number of backslashes in front.  The flag tells
whether an odd number of backslashes stands directly before the text. -/
def escapeQuotes : (odd : Bool) → Text → Text
  | _, [] => []
  | odd, c :: rest =>
    if c = backslash then c :: escapeQuotes (!odd) rest
    else if c = doubleQuote ∧ odd = false then
      backslash :: doubleQuote :: escapeQuotes false rest
    else c :: escapeQuotes false rest

/-- A text in double quotes. -/
def inQuotes (t : Text) : Text := doubleQuote :: escapeQuotes false t ++ [doubleQuote]

/-- A text as an identifier. -/
def identifier (t : Text) : Text :=
  let form := withoutFinalBreak t
  if isBracketed form then t
  else if (isWord form || isNumeral form) && !isKeyword t then t
  else inQuotes t

end DotText

end PatternAutomata
