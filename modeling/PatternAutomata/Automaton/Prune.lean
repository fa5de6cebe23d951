import PatternAutomata.Automaton.WellFormed
import PatternAutomata.Exploration

/-!
# Pruning

The part of an automaton that can be reached from its start state along transitions on symbols.  The
ε transitions are not followed, so that on a nondeterministic automaton a kept state can have an ε
transition to a state that is dropped; then there is no pruned automaton.

* `Automaton.reachable` — the states reached along symbols;
* `Automaton.restrict` — the automaton on some of its states;
* `Automaton.prune` — the automaton on its reachable states.
-/

namespace PatternAutomata

namespace Automaton

/-- The states that one transition on any symbol leads to. -/
def neighbours (A : Automaton) (q : State) : List State :=
  A.alphabet.toList.flatMap fun c => (A.ends q (some c)).toList

/-- The states reached from the start state along transitions on symbols. -/
def reachable (A : Automaton) : SortedSet State :=
  .ofList (explore A.neighbours A.states.size [A.start])

/-- The automaton with the given states, the transitions that start in them, and their names. -/
def restrict (A : Automaton) (kept : SortedSet State) : Automaton :=
  { A with
    states := kept
    transitions := A.transitions.filter fun origin _ => decide (origin.source ∈ kept)
    accepting := A.accepting.inter kept
    names := A.names.filter fun q _ => decide (q ∈ kept) }

/-- The automaton on its reachable states; if these are all, the automaton itself. -/
def prune (A : Automaton) : Except Violation Automaton :=
  if A.reachable = A.states then .ok A else (A.restrict A.reachable).assemble

/-- The number of states that pruning drops. -/
def unreachableCount (A : Automaton) : Nat := (A.states.sdiff A.reachable).size

end Automaton

end PatternAutomata
