import PatternAutomata.Automaton.Minimal
import PatternAutomata.Compilation.Construction
import PatternAutomata.Compilation.Flags
import PatternAutomata.Pattern.Postfix

/-!
# Compilation of a pattern

A pattern is rearranged into postfix notation, built into a nondeterministic automaton, and then, as
the flags ask, made deterministic and made minimal.

* `Stages` — the results of the stages;
* `Stages.ofPattern` — runs the stages;
* `compile` — the automaton of the last stage.
-/

namespace PatternAutomata

/-- The results of the stages of a compilation. -/
structure Stages where
  postfixTokens : List Token
  nfa : Automaton
  dfa? : Option Automaton
  minimal? : Option Automaton
  deriving DecidableEq

namespace Stages

/-- The result of the last stage. -/
def automaton (s : Stages) : Automaton := (s.minimal?.or s.dfa?).getD s.nfa

/-- The result of `f` if it is asked for. -/
def onlyIf (asked : Bool) (f : Fresh Automaton) : Fresh (Option Automaton) :=
  if asked then some <$> f else pure none

/-- Runs the stages that the flags ask for. -/
def ofPattern (pattern : Text) (flags : Flags) : Fresh Stages := do
  let tokens ← settled ((Postfix.ofText pattern).mapError .parse)
  let nfa ← build tokens
  let dfa? ← onlyIf flags.shouldDeterminize nfa.determinize
  let minimal? ← onlyIf flags.shouldMinimize (dfa?.getD nfa).minimize
  return ⟨tokens, nfa, dfa?, minimal?⟩

end Stages

/-- The automaton of a pattern. -/
def compile (pattern : Text) (flags : Flags) : Fresh Automaton := do
  return (← Stages.ofPattern pattern flags).automaton

end PatternAutomata
