import PatternAutomata.Compilation.Flags
import PatternAutomata.Text

/-!
# Forms of a compiled pattern

The three automata that a pattern can be compiled into, each with its short name and the flags that
ask for it.

* `Form.name`, `Form.flags` — name and flags;
* `Form.ofName?` — the form with a given name, which must be spelt exactly.
-/

namespace PatternAutomata

/-- An automaton that a pattern can be compiled into. -/
inductive Form where
  | nondeterministic
  | deterministic
  | minimal
  deriving DecidableEq, Repr

namespace Form

/-- All forms. -/
def all : List Form := [.nondeterministic, .deterministic, .minimal]

/-- The short name of a form. -/
def name : Form → Text
  | .nondeterministic => "NFA".toList
  | .deterministic => "DFA".toList
  | .minimal => "MIN".toList

/-- The flags that ask for a form. -/
def flags : Form → Flags
  | .nondeterministic => {}
  | .deterministic => { determinize := true }
  | .minimal => { minimize := true }

/-- The form with the given short name. -/
def ofName? (t : Text) : Option Form := all.find? fun form => form.name = t

end Form

end PatternAutomata
