import PatternAutomata.Text
import PatternAutomata.Text.Invisible

/-!
# Quoted texts

A text in quotation marks, so that it can stand in a message on one line.  Single quotes are used
unless the text holds a single quote and no double one.  Inside, the quote in use and the backslash
get a backslash in front, tab, line feed and carriage return are written `\t`, `\n` and `\r`, and
every other character that leaves no mark (`isInvisible`) is written by its code point.

* `Quoted.escaped` — one character between the quotation marks;
* `quoted` — the text in quotes.
-/

namespace PatternAutomata

namespace Quoted

/-- A character by its code point, in the shortest of the three widths that holds it. -/
def codePoint (c : Char) : Text :=
  if c.toNat < 0x100 then backslash :: 'x' :: hexadecimal 2 c.toNat
  else if c.toNat < 0x10000 then backslash :: 'u' :: hexadecimal 4 c.toNat
  else backslash :: 'U' :: hexadecimal 8 c.toNat

/-- One character between quotation marks of the kind `quote`. -/
def escaped (quote c : Char) : Text :=
  if c = quote ∨ c = backslash then [backslash, c]
  else if c = '\t' then [backslash, 't']
  else if c = '\n' then [backslash, 'n']
  else if c = '\r' then [backslash, 'r']
  else if isInvisible c then codePoint c
  else [c]

/-- The quotation mark for a text. -/
def mark (text : Text) : Char :=
  if singleQuote ∈ text ∧ doubleQuote ∉ text then doubleQuote else singleQuote

end Quoted

/-- A text in quotation marks. -/
def quoted (text : Text) : Text :=
  Quoted.mark text :: text.flatMap (Quoted.escaped (Quoted.mark text)) ++ [Quoted.mark text]

end PatternAutomata
