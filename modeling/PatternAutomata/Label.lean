import PatternAutomata.Text

/-!
# Symbols and labels

An automaton reads symbols, single characters.  A transition carries a label: a symbol that it
reads, or `none` for the ε transition, which reads nothing.

* `Symbol.ofText?` — the symbol that a text of one character stands for;
* `Label.text` — a label as it is shown, ε for the transition that reads nothing.
-/

namespace PatternAutomata

/-- One character of the input. -/
abbrev Symbol := Char

/-- What a transition reads: one symbol, or nothing. -/
abbrev Label := Option Symbol

/-- The sign shown for the transition that reads nothing. -/
def epsilonSign : Symbol := 'ε'

/-- The symbol of a text that holds exactly one character. -/
def Symbol.ofText? : Text → Option Symbol
  | [c] => some c
  | _ => none

/-- The sign shown for a label. -/
def Label.sign (l : Label) : Symbol := l.getD epsilonSign

/-- A label as it is shown. -/
def Label.text (l : Label) : Text := [l.sign]

theorem Symbol.ofText?_eq_some_iff {t : Text} {c : Symbol} : ofText? t = some c ↔ t = [c] := by
  match t with
  | [] => simp [ofText?]
  | [d] => simp [ofText?]
  | _ :: _ :: _ => simp [ofText?]

end PatternAutomata
