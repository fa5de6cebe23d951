import PatternAutomata.Automaton.Render
import PatternAutomata.Blueprint
import PatternAutomata.Compilation.Stages

/-!
# Sessions

A session keeps automata under names and goes through a list of steps.  A step makes an automaton
and keeps it, or asks something.  A step that fails changes no register, but the states that it took
stay taken.

* `Making`, `Asking`, `Step` — the steps;
* `Answer` — what a step answers;
* `Session.run` — the answers of a list of steps.
-/

namespace PatternAutomata

/-! ### Steps -/

/-- A step that makes an automaton.  Operands are given by the names of registers. -/
inductive Making where
  | symbol (text : Text)
  | epsilon
  | empty
  | build (tokens : List WrittenToken)
  | compile (pattern : Text) (flags : Flags)
  | union (left right : Text)
  | concatenate (left right : Text)
  | star (operand : Text)
  | relabel (operand : Text)
  | determinize (operand : Text)
  | minimize (operand : Text)
  | prune (operand : Text)
  | make (blueprint : Blueprint)
  deriving DecidableEq

/-- The ways to show an automaton as a text. -/
inductive Rendering where
  | description
  | summary
  | json
  | graph
  deriving DecidableEq

/-- The text that shows an automaton in one of the ways. -/
def Rendering.text : Rendering → Automaton → Text
  | .description => Automaton.description
  | .summary => Automaton.summary
  | .json => Automaton.json
  | .graph => Automaton.graph

/-- A question about one automaton. -/
inductive Query where
  | automaton
  | accepts (texts : List Text)
  | closure (states : List State)
  | move (states : List State) (text : Text)
  | ends (state : State) (label : WrittenLabel)
  | reachable
  | blocks
  | names (states : List State)
  | sizes
  | rendering (rendering : Rendering)
  deriving DecidableEq

/-- A step that asks something. -/
inductive Asking where
  | about (register : Text) (query : Query)
  | freshStates (count : Nat)
  /-- States in braces, in ascending order and as often as they are given. -/
  | listText (states : List State)
  deriving DecidableEq

/-- One step of a session. -/
inductive Step where
  | keep (register : Text) (making : Making)
  | ask (asking : Asking)
  deriving DecidableEq

/-- What a step answers. -/
inductive Answer where
  | automaton (A : Automaton)
  | verdicts (accepted : List Bool)
  | states (states : List State)
  | blocks (blocks : List Block)
  | texts (texts : List Text)
  | sizes (states transitions : Nat) (deterministic : Bool)
  | text (text : Text)
  deriving DecidableEq

/-- The automata that are kept, by name. -/
abbrev Registers := OrderedMap Text Automaton

/-- The automaton that is kept under a name. -/
def Registers.find (registers : Registers) (name : Text) : Except Fault Automaton :=
  match registers.get? name with
  | some A => .ok A
  | none => .error (.noRegister name)

/-- Makes an automaton. -/
def Making.run (registers : Registers) : Making → Fresh Automaton
  | .symbol t => do Automaton.symbol (← settled (Symbol.ofText t))
  | .epsilon => Automaton.epsilon
  | .empty => Automaton.empty
  | .build tokens => do PatternAutomata.build (← settled (tokens.mapM WrittenToken.token))
  | .compile pattern flags => PatternAutomata.compile pattern flags
  | .union left right => do
    let A ← settled (Registers.find registers left)
    let B ← settled (Registers.find registers right)
    A.union B
  | .concatenate left right => do
    let A ← settled (Registers.find registers left)
    let B ← settled (Registers.find registers right)
    A.concatenate B
  | .star operand => do (← settled (Registers.find registers operand)).star
  | .relabel operand => do (← settled (Registers.find registers operand)).relabel
  | .determinize operand => do (← settled (Registers.find registers operand)).determinize
  | .minimize operand => do (← settled (Registers.find registers operand)).minimize
  | .prune operand => do (← settled (Registers.find registers operand)).pruned
  | .make blueprint => settled blueprint.automaton

/-- Answers a question about an automaton. -/
def Query.answer (A : Automaton) : Query → Except Fault Answer
  | .automaton => .ok (.automaton A)
  | .accepts texts => .ok (.verdicts (texts.map A.accepts))
  | .closure states => .ok (.states (A.closure (.ofList states)).toList)
  | .move states t => do
    let c ← Symbol.ofText t
    return .states (A.move (.ofList states) c).toList
  | .ends q l => do return .states (A.ends q (← WrittenLabel.label l)).toList
  | .reachable => .ok (.states A.reachable.toList)
  | .blocks => do return .blocks (← A.tryRefine.mapError .violation)
  | .names states => .ok (.texts (states.map A.name))
  | .sizes => .ok (.sizes A.stateCount A.transitionCount A.isDeterministic)
  | .rendering r => .ok (.text (r.text A))

/-- Answers a question. -/
def Asking.run (registers : Registers) : Asking → Fresh Answer
  | .about name query => settled do query.answer (← Registers.find registers name)
  | .freshStates n => do
    let base ← reserve n
    return .states ((List.range n).map fun (i : Nat) => base + (i : State))
  | .listText states => pure (.text (bracedText (states.mergeSort fun p q => decide (p ≤ q))))

/-! ### Running a session -/

/-- The automata that are kept, and the next state to hand out. -/
structure Session where
  registers : Registers
  counter : State
  deriving DecidableEq

namespace Session

/-- Nothing kept and no state handed out. -/
def initial : Session := ⟨∅, 0⟩

/-- Takes one step. -/
def step (s : Session) : Step → Except Fault Answer × Session
  | .keep name making =>
    match (making.run s.registers).runFrom s.counter with
    | (.ok A, counter) => (.ok (.automaton A), ⟨s.registers.insert name A, counter⟩)
    | (.error e, counter) => (.error e, ⟨s.registers, counter⟩)
  | .ask asking =>
    let (answer, counter) := (asking.run s.registers).runFrom s.counter
    (answer, ⟨s.registers, counter⟩)

/-- The answers to a list of steps. -/
def run (s : Session) : List Step → List (Except Fault Answer)
  | [] => []
  | step :: rest => (s.step step).1 :: (s.step step).2.run rest

theorem length_run (s : Session) (steps : List Step) : (s.run steps).length = steps.length := by
  induction steps generalizing s with
  | nil => rfl
  | cons step rest ih => simp [run, ih]

end Session

end PatternAutomata
