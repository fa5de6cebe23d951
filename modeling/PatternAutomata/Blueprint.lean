import PatternAutomata.Fault

/-!
# Blueprints

Tokens, labels and automata as they are written down, before anything about them has been checked.

* `WrittenToken`, `WrittenLabel` — with a text where a single character is needed;
* `Blueprint` — an automaton with lists in place of sets;
* `Blueprint.automaton` — the automaton that is written down, if there is one.
-/

namespace PatternAutomata

/-- A token as it is written down: the literal may turn out to be no single character. -/
inductive WrittenToken where
  | literal (text : Text)
  | operator (operator : Operator)
  deriving DecidableEq

/-- The token that is written down. -/
def WrittenToken.token : WrittenToken → Except Fault Token
  | .literal t => return .literal (← Symbol.ofText t)
  | .operator o => return .operator o

/-- A label as it is written down. -/
abbrev WrittenLabel := Option Text

/-- The label that is written down. -/
def WrittenLabel.label : WrittenLabel → Except Fault Label
  | none => return none
  | some t => return some (← Symbol.ofText t)

/-- An automaton as it is written down. -/
structure Blueprint where
  alphabet : List Text
  states : List State
  transitions : List (State × WrittenLabel × List State)
  start : State
  accepting : List State
  kind : Text
  names : List (State × Text)
  deriving DecidableEq

/-- The automaton that is written down.  The characters of the alphabet are checked first, then
those of the labels, then the kind, and then the rules for automata. -/
def Blueprint.automaton (b : Blueprint) : Except Fault Automaton := do
  let alphabet ← b.alphabet.mapM Symbol.ofText
  let transitions ← b.transitions.mapM fun t => do
    return (Origin.mk t.1 (← WrittenLabel.label t.2.1), SortedSet.ofList t.2.2)
  let kind ← Kind.ofText b.kind
  Except.mapError .violation <| Automaton.assemble
    { alphabet := .ofList alphabet
      states := .ofList b.states
      transitions := .ofList transitions
      start := b.start
      accepting := .ofList b.accepting
      kind := kind
      names := .ofList b.names }

end PatternAutomata
