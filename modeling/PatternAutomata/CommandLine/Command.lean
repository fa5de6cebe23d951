import PatternAutomata.Automaton.Render
import PatternAutomata.CommandLine.Arguments
import PatternAutomata.CommandLine.Lines
import PatternAutomata.Compilation.Stages

/-!
# The command

The command compiles a pattern and tells for each of some texts whether the pattern matches the
whole of it.  The texts are given as options and as the lines of a file.

* `Surroundings` — the files and the standard input, as the command meets them;
* `Stop` — why the command does not do what it is asked to do;
* `Request` — what the command is asked to do, and `Request.ofArguments?`, which checks the
  arguments;
* `Request.report` — what it writes;
* `Outcome`, `runCommand` — the whole command as a function of its arguments and surroundings;
* `filesToRead` — the files that it looks at.
-/

namespace PatternAutomata

/-- The name that stands for the standard input or output. -/
def standardStream : Text := ['-']

/-- Why the command does not do what it is asked to do. -/
inductive Stop where
  /-- It says what is wrong. -/
  | complaint (c : Complaint)
  /-- It breaks off, and whoever calls it learns the fault. -/
  | fault (f : Fault)
  deriving DecidableEq

/-- What stops the command if its pattern gives no automaton. -/
def Stop.ofFault : Fault → Stop
  | .parse e => .complaint (.badPattern e)
  | f => .fault f

/-- What the command meets where it runs. -/
structure Surroundings where
  /-- The content of the standard input. -/
  input : Text
  /-- The content of the file to which a name leads. -/
  read : Text → Except Obstacle Text
  /-- What keeps a file from being written under a name. -/
  obstacle? : Text → Option Obstacle

namespace Surroundings

/-- A file tree and a standard input. -/
def ofFileTree (t : FileTree) (input : Text) : Surroundings where
  input := input
  read := t.read
  obstacle? name :=
    match t.destination name with
    | .ok _ => none
    | .error o => some o

/-- The content of an input file, or of the standard input. -/
def contentOf (s : Surroundings) (name : Text) : Except Stop Text :=
  if name = standardStream then .ok s.input
  else if isFileName name then (s.read name).mapError fun o => .complaint (.unreadable name o)
  else .error (.fault (.notAFileName name))

end Surroundings

/-- What the command is asked to do. -/
structure Request where
  pattern : Text
  texts : List Text
  form : Form
  listing : Bool
  output : Text
  deriving DecidableEq

namespace Request

/-- The form that is asked for, by default the minimal one. -/
def form? (a : Arguments) : Except Stop Form :=
  match a.value? .form with
  | none => .ok .minimal
  | some name =>
    match Form.ofName? name with
    | some form => .ok form
    | none => .error (.complaint (.badForm name))

/-- The content of the input file that is asked for, by default nothing. -/
def input? (a : Arguments) (s : Surroundings) : Except Stop Text :=
  match a.value? .inputFile with
  | none => .ok []
  | some name => s.contentOf name

/-- Checks the value of one option. -/
def checkOption (a : Arguments) (s : Surroundings) : Switch → Except Stop Unit
  | .form => do let _ ← form? a
  | .inputFile => do let _ ← input? a s
  | _ => .ok ()

/-- The request that the arguments make.  The values of the options are checked in the order in
which the options first occur, and the other arguments after them. -/
def ofArguments? (a : Arguments) (s : Surroundings) : Except Stop Request := do
  a.options.forM fun o => checkOption a s o.1
  match a.positional with
  | [] => throw (.complaint .missingPattern)
  | [pattern] =>
    return {
      pattern := pattern
      texts := a.values .text ++ lines (← input? a s)
      form := ← form? a
      listing := a.has .listing
      output := (a.value? .output).getD standardStream }
  | _ :: extra => throw (.complaint (.extraArguments extra))

/-- For each distinct text, in the order of first places, whether it is accepted. -/
def results (A : Automaton) (texts : List Text) : List (Text × Text) :=
  (distinct texts).map fun t => (t, JsonText.boolean (A.accepts t))

/-- What the command writes: the automaton if it is asked for, and the results. -/
def report (r : Request) (A : Automaton) : Text :=
  (if r.listing then A.description ++ ['\n'] else [])
    ++ JsonText.objectLines (results A r.texts) ++ ['\n']

end Request

/-- How the command ends. -/
structure Outcome where
  exitCode : Nat
  /-- What goes to the standard output. -/
  output : Text := []
  /-- What goes to the standard error output. -/
  errors : Text := []
  /-- The name of the file that is written, with its content. -/
  written? : Option (Text × Text) := none
  deriving DecidableEq

namespace Outcome

/-- The command stops with a complaint. -/
def complaining (c : Complaint) : Outcome := { exitCode := c.exitCode, errors := c.report }

/-- How the command ends if it may have to stop: only a complaint is an outcome of its own. -/
def ofStop : Except Stop Outcome → Except Fault Outcome
  | .ok outcome => .ok outcome
  | .error (.complaint c) => .ok (complaining c)
  | .error (.fault f) => .error f

/-- The command writes a text to a file or to the standard output.  The file is looked at only now,
so all else that can be wrong comes before it. -/
def writing (s : Surroundings) (name content : Text) : Except Stop Outcome :=
  if name = standardStream then .ok { exitCode := 0, output := content }
  else if isFileName name then
    match s.obstacle? name with
    | some o => .error (.complaint (.unwritable name o))
    | none => .ok { exitCode := 0, written? := some (name, content) }
  else .error (.fault (.notAFileName name))

/-- A file tree afterwards. -/
def filesAfter (o : Outcome) (t : FileTree) : FileTree :=
  match o.written? with
  | some (name, content) => t.write name content
  | none => t

end Outcome

/-- The command with the given arguments and surroundings. -/
def runCommand (arguments : List Text) (s : Surroundings) : Except Fault Outcome :=
  Outcome.ofStop do
    let given ← (Arguments.read arguments).mapError .complaint
    let request ← Request.ofArguments? given s
    let automaton := ((compile request.pattern request.form.flags).runFrom 0).1
    let A ← automaton.mapError .ofFault
    Outcome.writing s request.output (request.report A)

/-- The names of the files that the command looks at. -/
def filesToRead (arguments : List Text) : List Text :=
  match Arguments.read arguments with
  | .error _ => []
  | .ok a => (a.value? .inputFile).toList

end PatternAutomata
