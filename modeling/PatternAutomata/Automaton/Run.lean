import PatternAutomata.Automaton.Basic
import PatternAutomata.Exploration

/-!
# Running an automaton

Whether an automaton accepts a text, computed by following sets of states.  A symbol outside the
alphabet rejects the text at once, and so does an empty set of states.  A deterministic automaton is
run state by state.

* `Automaton.closure` — the states reached by ε transitions alone;
* `Automaton.move` — the states reached by one transition on a symbol;
* `Automaton.after` — the closed set of states reached by one symbol from a closed set;
* `Automaton.successor?` — the one state that a symbol leads to;
* `Automaton.accepts` — whether the whole text is accepted.
-/

namespace PatternAutomata

namespace Automaton

/-- The states that one ε transition leads to. -/
def silentEnds (A : Automaton) (q : State) : List State := (A.ends q none).toList

/-- The states reached from the given ones by any number of ε transitions.  There are at most as
many as given states and states of the automaton together. -/
def closure (A : Automaton) (states : SortedSet State) : SortedSet State :=
  .ofList (explore A.silentEnds (states.size + A.states.size) states.toList)

/-- The states reached from the given ones by one transition on `c`. -/
def move (A : Automaton) (states : SortedSet State) (c : Symbol) : SortedSet State :=
  states.bind fun q => A.ends q (some c)

/-- The states in which an automaton can be before it reads anything. -/
def initial (A : Automaton) : SortedSet State := A.closure (.singleton A.start)

/-- The states in which an automaton can be after reading `c` in one of the given states. -/
def after (A : Automaton) (states : SortedSet State) (c : Symbol) : SortedSet State :=
  A.closure (A.move states c)

/-- The only member of a set. -/
def only? (states : SortedSet State) : Option State :=
  match states.toList with
  | [q] => some q
  | _ => none

/-- The only state that `c` leads to from `q`. -/
def successor? (A : Automaton) (q : State) (c : Symbol) : Option State :=
  only? (A.ends q (some c))

/-- Reads a text from a set of states in which the automaton can be. -/
def acceptsFrom (A : Automaton) : SortedSet State → Text → Bool
  | states, [] => !(decide (states.Disjoint A.accepting))
  | states, c :: rest =>
    if c ∈ A.alphabet then
      if (A.after states c).isEmpty then false else A.acceptsFrom (A.after states c) rest
    else false

/-- Reads a text from one state, following the only transition for each symbol. -/
def acceptsAlong (A : Automaton) : State → Text → Bool
  | q, [] => q ∈ A.accepting
  | q, c :: rest =>
    if c ∈ A.alphabet then
      match A.successor? q c with
      | some e => A.acceptsAlong e rest
      | none => false
    else false

/-- Whether the whole of a text is accepted. -/
def accepts (A : Automaton) (text : Text) : Bool :=
  if A.isDeterministic then A.acceptsAlong A.start text else A.acceptsFrom A.initial text

end Automaton

end PatternAutomata
