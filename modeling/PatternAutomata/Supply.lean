import PatternAutomata.Fault

/-!
# The supply of states

Operations that build automata take fresh states from a counter.  The counter moves on with every
state handed out, also when the operation fails afterwards.

* `Fresh α` — an operation that takes states and gives an `α` or a fault;
* `fresh` — one state; `reserve n` — `n` consecutive states, of which it gives the first;
* `assembled` — an automaton put together and checked;
* `runFrom_pure`, `runFrom_bind`, `runFrom_reserve`, … — running, operation by operation.
-/

namespace PatternAutomata

/-- An operation on the counter of states that gives an `α` or a fault. -/
abbrev Fresh (α : Type) := ExceptT Fault (StateM State) α

namespace Fresh

/-- The outcome from a given counter, and the counter afterwards. -/
def runFrom {α : Type} (x : Fresh α) (counter : State) : Except Fault α × State :=
  StateT.run (ExceptT.run x) counter

end Fresh

/-- Hands out `n` consecutive states and gives the first of them. -/
def reserve (n : Nat) : Fresh State := fun counter => (.ok counter, counter + n)

/-- Hands out one state. -/
def fresh : Fresh State := reserve 1

/-- An outcome that needs no states. -/
def settled {α : Type} (x : Except Fault α) : Fresh α := fun counter => (x, counter)

/-- Puts an automaton together and checks it. -/
def assembled (A : Automaton) : Fresh Automaton := settled (A.assemble.mapError .violation)

namespace Fresh

/-! ### Running, operation by operation -/

variable {α β : Type}

@[simp] theorem runFrom_pure (a : α) (counter : State) :
    (pure a : Fresh α).runFrom counter = (.ok a, counter) := rfl

/-- The second operation goes on from the counter that the first one leaves; a fault ends the
run. -/
theorem runFrom_bind (x : Fresh α) (f : α → Fresh β) (counter : State) :
    (x >>= f).runFrom counter =
      match x.runFrom counter with
      | (.ok a, next) => (f a).runFrom next
      | (.error e, next) => (.error e, next) := by
  simp only [runFrom, bind, ExceptT.bind, ExceptT.mk, ExceptT.run, StateT.run, StateT.bind]
  cases x counter with
  | mk outcome next => cases outcome <;> rfl

@[simp] theorem runFrom_map (f : α → β) (x : Fresh α) (counter : State) :
    (f <$> x).runFrom counter = ((x.runFrom counter).1.map f, (x.runFrom counter).2) := by
  rw [map_eq_pure_bind, runFrom_bind]
  cases x.runFrom counter with
  | mk outcome next => cases outcome <;> rfl

@[simp] theorem runFrom_reserve (n : Nat) (counter : State) :
    (reserve n).runFrom counter = (.ok counter, counter + n) := rfl

@[simp] theorem runFrom_fresh (counter : State) :
    fresh.runFrom counter = (.ok counter, counter + 1) := rfl

@[simp] theorem runFrom_settled (x : Except Fault α) (counter : State) :
    (settled x).runFrom counter = (x, counter) := rfl

/-- An automaton is put together without taking states. -/
theorem runFrom_assembled (A : Automaton) (counter : State) :
    (assembled A).runFrom counter = (A.assemble.mapError .violation, counter) := rfl

end Fresh

end PatternAutomata
