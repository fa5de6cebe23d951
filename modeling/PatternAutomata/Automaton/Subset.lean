import PatternAutomata.Automaton.Run
import PatternAutomata.Supply

/-!
# Subset construction

A total deterministic automaton whose states stand for the sets of states in which the given
automaton can be.  The sets are discovered breadth first, symbols in ascending order, and numbered
consecutively in that order.  The empty set, if some text leads to it, is a state like any other: no
symbol leads out of it.

* `Automaton.subsets` — the sets of states, in the order of their discovery;
* `subsetName` — the name of the state that stands for a set;
* `Automaton.onSubsets` — the automaton on given sets, numbered from a base;
* `Automaton.determinize` — the same with fresh states.
-/

namespace PatternAutomata

/-- States in braces with commas between the numbers. -/
def bracedText (states : List State) : Text :=
  '\x7b' :: joined [','] (states.map decimal) ++ ['\x7d']

/-- A set of states in braces, in ascending order. -/
def setText (states : SortedSet State) : Text := bracedText states.toList

/-- The name of the state that no accepting state can be reached from, because it stands for the
empty set. -/
def deadName : Text := ['∅']

/-- The name of the state that stands for a set of states. -/
def subsetName (states : SortedSet State) : Text :=
  if states.isEmpty then deadName else setText states

namespace Automaton

/-- The sets of states in which the automaton can be after some text over its alphabet, in the order
of their discovery.  There are at most as many as the states have subsets. -/
def subsets (A : Automaton) : List (SortedSet State) :=
  explore (fun S => A.alphabet.toList.map (A.after S)) (Nat.pow 2 A.states.size) [A.initial]

/-- The deterministic automaton on the given sets of states of `A`, numbered from `base` in their
order. -/
def onSubsets (A : Automaton) (sets : List (SortedSet State)) (base : State) : Automaton :=
  let number (S : SortedSet State) : State := base + sets.idxOf S
  { alphabet := A.alphabet
    states := .ofList (sets.map number)
    transitions := .ofList <| sets.flatMap fun S =>
      A.alphabet.toList.map fun c => (⟨number S, some c⟩, .singleton (number (A.after S c)))
    start := base
    accepting := .ofList ((sets.filter fun S => !decide (S.Disjoint A.accepting)).map number)
    kind := .deterministic
    names := .ofList (sets.map fun S => (number S, subsetName S)) }

/-- A total deterministic automaton with fresh states that accepts the same texts. -/
def determinize (A : Automaton) : Fresh Automaton := do
  let sets := A.subsets
  let base ← reserve sets.length
  assembled (A.onSubsets sets base)

end Automaton

end PatternAutomata
