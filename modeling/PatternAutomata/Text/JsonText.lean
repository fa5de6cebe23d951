import PatternAutomata.Text

/-!
# JSON texts

JSON written in ASCII: on one line with a space after each comma and colon, or an object over
several lines with four spaces of indentation.  A character that is no printable ASCII character,
U+007F among them, is written by its UTF-16 units unless it has a short escape.

* `JsonText.string`, `JsonText.number`, `JsonText.boolean` — single values;
* `JsonText.array`, `JsonText.object` — values of written parts, on one line;
* `JsonText.objectLines` — an object with a line for each member.
-/

namespace PatternAutomata

namespace JsonText

/-- One UTF-16 unit as an escape. -/
def unit (n : Nat) : Text := backslash :: 'u' :: hexadecimal 4 n

/-- A character by its UTF-16 units: one, or a surrogate pair beyond the first plane. -/
def units (c : Char) : Text :=
  if c.toNat < 0x10000 then unit c.toNat
  else
    unit (0xD800 + (c.toNat - 0x10000) / 0x400) ++ unit (0xDC00 + (c.toNat - 0x10000) % 0x400)

/-- One character between quotation marks. -/
def escaped (c : Char) : Text :=
  if c = doubleQuote ∨ c = backslash then [backslash, c]
  else if c = '\n' then [backslash, 'n']
  else if c = '\r' then [backslash, 'r']
  else if c = '\t' then [backslash, 't']
  else if c = '\x08' then [backslash, 'b']
  else if c = '\x0c' then [backslash, 'f']
  else if 0x20 ≤ c.toNat ∧ c.toNat < 0x7F then [c]
  else units c

/-- A string. -/
def string (t : Text) : Text := doubleQuote :: t.flatMap escaped ++ [doubleQuote]

/-- An integer. -/
def number (n : Int) : Text := decimal n

/-- A truth value. -/
def boolean (b : Bool) : Text := if b then "true".toList else "false".toList

/-- An array of written values. -/
def array (items : List Text) : Text := '[' :: joined ", ".toList items ++ [']']

/-- A member of an object: its key and its written value. -/
def member (m : Text × Text) : Text := string m.1 ++ ": ".toList ++ m.2

/-- An object of keys and written values. -/
def object (members : List (Text × Text)) : Text :=
  '\x7b' :: joined ", ".toList (members.map member) ++ ['\x7d']

/-- An object of keys and written values with a line for each member. -/
def objectLines (members : List (Text × Text)) : Text :=
  match members with
  | [] => ['\x7b', '\x7d']
  | _ =>
    "\x7b\n    ".toList ++ joined ",\n    ".toList (members.map member) ++ "\n\x7d".toList

end JsonText

end PatternAutomata
