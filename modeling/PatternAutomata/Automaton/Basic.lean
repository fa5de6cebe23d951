import PatternAutomata.Label
import PatternAutomata.OrderedMap
import PatternAutomata.SortedSet

/-!
# Finite automata

A finite automaton with ε transitions, kept as data: an alphabet, states, a transition table, a
start state and accepting states.  A deterministic automaton is kept in the same way and marked by
its kind.  States are integers, and some of them may have names.

* `Automaton` — the data;
* `Automaton.ends` — where the transitions with a given source and label lead;
* `Automaton.listing` — all transitions by source, then label with ε first, then end;
* `Automaton.name` — the name of a state, by default its number;
* `mem_listing` — which transitions are listed.
-/

namespace PatternAutomata

/-- The identity of a state. -/
abbrev State := Int

/-- Where transitions come from: their source and their label. -/
structure Origin where
  source : State
  label : Label
  deriving DecidableEq

/-- The ends of the transitions by origin, in the order in which the entries were made. -/
abbrev TransitionTable := OrderedMap Origin (SortedSet State)

/-- Whether an automaton may have ε transitions and choices. -/
inductive Kind where
  | nondeterministic
  | deterministic
  deriving DecidableEq, Repr

/-- The short name of a kind. -/
def Kind.text : Kind → Text
  | .nondeterministic => "NFA".toList
  | .deterministic => "DFA".toList

/-- The kind with the given short name. -/
def Kind.ofText? (t : Text) : Option Kind :=
  if t = Kind.nondeterministic.text then some .nondeterministic
  else if t = Kind.deterministic.text then some .deterministic
  else none

/-- One transition. -/
structure Transition where
  source : State
  label : Label
  target : State
  deriving DecidableEq

/-- A finite automaton, whether or not its parts fit together. -/
structure Automaton where
  alphabet : SortedSet Symbol
  states : SortedSet State
  transitions : TransitionTable
  start : State
  accepting : SortedSet State
  kind : Kind := .nondeterministic
  names : OrderedMap State Text := ∅
  deriving DecidableEq

namespace Automaton

/-- The ends of the transitions from `q` with the label `l`. -/
def ends (A : Automaton) (q : State) (l : Label) : SortedSet State :=
  (A.transitions.get? ⟨q, l⟩).getD ∅

/-- Whether the automaton is marked as deterministic. -/
def isDeterministic (A : Automaton) : Bool := A.kind = .deterministic

/-- The labels that a transition can have: ε, and then the symbols in ascending order. -/
def labels (A : Automaton) : List Label := none :: A.alphabet.toList.map some

/-- All transitions by source, then label with ε first, then end. -/
def listing (A : Automaton) : List Transition :=
  A.states.toList.flatMap fun q =>
    A.labels.flatMap fun l => (A.ends q l).toList.map fun e => ⟨q, l, e⟩

/-- The number of states. -/
def stateCount (A : Automaton) : Nat := A.states.size

/-- The number of transitions. -/
def transitionCount (A : Automaton) : Nat :=
  A.transitions.entries.foldr (fun e n => e.2.size + n) 0

/-- The name of a state: the one it was given, or else its number. -/
def name (A : Automaton) (q : State) : Text := (A.names.get? q).getD (decimal q)

/-- The states that were given names, in ascending order, with their names. -/
def namedStates (A : Automaton) : List (State × Text) :=
  (SortedSet.ofList A.names.keys).toList.filterMap fun q => (A.names.get? q).map fun t => (q, t)

theorem mem_listing {A : Automaton} {t : Transition} :
    t ∈ A.listing ↔
      t.source ∈ A.states ∧ t.label ∈ A.labels ∧ t.target ∈ A.ends t.source t.label := by
  obtain ⟨q, l, e⟩ := t
  simp only [listing, List.mem_flatMap, List.mem_map, Transition.mk.injEq, ← SortedSet.mem_def]
  constructor
  · rintro ⟨q', hq, l', hl, e', he, rfl, rfl, rfl⟩
    exact ⟨hq, hl, he⟩
  · rintro ⟨hq, hl, he⟩
    exact ⟨q, hq, l, hl, e, he, rfl, rfl, rfl⟩

end Automaton

end PatternAutomata
