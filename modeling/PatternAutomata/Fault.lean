import PatternAutomata.Automaton.WellFormed
import PatternAutomata.Pattern.ParseError

/-!
# Faults

Everything that can keep an operation from giving a result.

* `Fault` — the causes;
* `Fault.message` — how each of them is reported.
-/

namespace PatternAutomata

/-- Why an operation gives no result. -/
inductive Fault where
  /-- A pattern or a postfix sequence denotes nothing. -/
  | parse (error : ParseError)
  /-- The parts of an automaton do not fit together. -/
  | violation (rule : Violation)
  /-- A name is given to a state that the automaton does not have. -/
  | strayName (state : State)
  /-- A text stands where a single character is needed. -/
  | notACharacter (text : Text)
  /-- A text stands where the name of a kind of automata is needed. -/
  | unknownKind (text : Text)
  /-- A text stands where the name of a file is needed, and no file can have such a name. -/
  | notAFileName (text : Text)
  /-- No automaton is kept under this name. -/
  | noRegister (name : Text)
  deriving DecidableEq

/-- The text that reports a fault. -/
def Fault.message : Fault → Text
  | .parse e => e.message
  | .violation v => v.message
  | .strayName q => decimal q
  | .notACharacter t => "expected a single character, got ".toList ++ quoted t
  | .unknownKind t => quoted t ++ " is not a valid AutomatonKind".toList
  | .notAFileName _ => "embedded null byte".toList
  | .noRegister name => name

/-- The symbol of a text of one character. -/
def Symbol.ofText (t : Text) : Except Fault Symbol :=
  match Symbol.ofText? t with
  | some c => .ok c
  | none => .error (.notACharacter t)

/-- The kind with the given short name. -/
def Kind.ofText (t : Text) : Except Fault Kind :=
  match Kind.ofText? t with
  | some k => .ok k
  | none => .error (.unknownKind t)

end PatternAutomata
