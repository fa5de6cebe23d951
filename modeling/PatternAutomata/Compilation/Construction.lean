import PatternAutomata.Automaton.Compose

/-!
# Construction from postfix tokens

The automaton of a postfix sequence, built on a stack.  A literal pushes the automaton of its
symbol; an operator pops its operands, the latest first, and pushes their composition.  No token at
all denotes the empty text.

* `Construction.step` — one token;
* `Construction.run` — a sequence of tokens;
* `build` — the automaton of a whole sequence;
* `Construction.run_append` — a run over two pieces is a run over the first and then over the
  second.
-/

namespace PatternAutomata

namespace Construction

/-- Takes one token on a stack of operands, the latest first. -/
def step (stack : List Automaton) : Token → Fresh (List Automaton)
  | .literal c => do return (← Automaton.symbol c) :: stack
  | .operator .star =>
    match stack with
    | a :: rest => do return (← a.star) :: rest
    | [] => settled (.error (.parse (.missingOperand .star)))
  | .operator .concatenation =>
    match stack with
    | b :: a :: rest => do return (← a.concatenate b) :: rest
    | _ => settled (.error (.parse (.missingOperand .concatenation)))
  | .operator .union =>
    match stack with
    | b :: a :: rest => do return (← a.union b) :: rest
    | _ => settled (.error (.parse (.missingOperand .union)))
  | .operator o => settled (.error (.parse (.strayParenthesis o)))

/-- Takes the tokens one after the other. -/
def run (stack : List Automaton) : List Token → Fresh (List Automaton)
  | [] => pure stack
  | t :: rest => do run (← step stack t) rest

/-- The result that a stack holds in the end. -/
def result : List Automaton → Fresh Automaton
  | [] => Automaton.epsilon
  | [a] => pure a
  | stack => settled (.error (.parse (.leftoverOperands stack.length)))

theorem run_append (stack : List Automaton) (s t : List Token) :
    run stack (s ++ t) = run stack s >>= fun stack => run stack t := by
  induction s generalizing stack with
  | nil => simp [run]
  | cons a s ih => simp [run, ih]

end Construction

/-- The automaton of a postfix sequence. -/
def build (tokens : List Token) : Fresh Automaton := do
  Construction.result (← Construction.run [] tokens)

end PatternAutomata
