import PatternAutomata.Automaton.Partition
import PatternAutomata.Automaton.Prune
import PatternAutomata.Automaton.Subset

/-!
# Minimal automata

The deterministic automaton with the fewest states that accepts given texts: the reachable states
are grouped by what they accept, and each group becomes one state.

* `Automaton.quotient` — one state for each block, numbered from a base in the order of the blocks;
* `Automaton.minimize` — the quotient of the reachable part by its refined partition.
-/

namespace PatternAutomata

namespace Automaton

/-- One state for each block, numbered from `base` in their order.  The smallest member of a block
stands for the whole block: in a settled partition all members agree on where each symbol leads. -/
def quotient (A : Automaton) (blocks : List Block) (base : State) : Automaton :=
  let number (b : Block) : State := base + blocks.idxOf b
  let numberOf (q : State) : State := base + blocks.findIdx fun b => decide (q ∈ b)
  { alphabet := A.alphabet
    states := .ofList (blocks.map number)
    transitions := .ofList <| blocks.flatMap fun b => b.toList.head?.toList.flatMap fun q =>
      A.alphabet.toList.map fun c => (⟨number b, some c⟩, (A.ends q (some c)).map numberOf)
    start := numberOf A.start
    accepting := .ofList ((blocks.filter fun b => !decide (b.Disjoint A.accepting)).map number)
    kind := .deterministic
    names := .ofList (blocks.map fun b => (number b, setText b)) }

/-- An automaton itself if it is deterministic, and else its subset automaton. -/
def ensureDeterministic (A : Automaton) : Fresh Automaton :=
  if A.isDeterministic then pure A else A.determinize

/-- The automaton on the reachable states. -/
def pruned (A : Automaton) : Fresh Automaton := settled (A.prune.mapError .violation)

/-- The deterministic automaton with the fewest states, all fresh, that accepts the same texts.  In
the reachable part there is no choice at which the refinement could stop. -/
def minimize (A : Automaton) : Fresh Automaton := do
  let reachable ← (← A.ensureDeterministic).pruned
  let blocks := reachable.refine
  let base ← reserve blocks.length
  assembled (reachable.quotient blocks base)

end Automaton

end PatternAutomata
