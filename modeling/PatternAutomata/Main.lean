import PatternAutomata.CommandLine.Command

/-!
# The program

Reads the files that the command looks at, runs the command, and carries out what it asks for.
-/

namespace PatternAutomata

/-- The rest of a stream. -/
partial def restOf (stream : IO.FS.Stream) : IO String := do
  let line ← stream.getLine
  if line.isEmpty then return "" else return line ++ (← restOf stream)

/-- The number of an error of the operating system, which is reported with either sign. -/
def errorNumber (code : UInt32) : UInt32 := if code < 0x80000000 then code else 0 - code

/-- The words of the operating system for an error. -/
def wordsFor : IO.Error → String
  | .alreadyExists _ _ words | .interrupted _ _ words | .noFileOrDirectory _ _ words
  | .invalidArgument _ _ words | .permissionDenied _ _ words | .resourceExhausted _ _ words
  | .inappropriateType _ _ words | .noSuchThing _ _ words => words
  | .otherError _ words | .resourceBusy _ words | .resourceVanished _ words
  | .unsupportedOperation _ words | .hardwareFault _ words | .unsatisfiedConstraints _ words
  | .illegalOperation _ words | .protocolError _ words | .timeExpired _ words => words
  | .unexpectedEof => "end of file"
  | .userError words => words

/-- The obstacle that an error of the operating system reports. -/
def obstacleOf (error : IO.Error) : Obstacle :=
  let unnamed := Obstacle.other (wordsFor error).toList
  match error with
  | .noFileOrDirectory _ _ _ => .absent
  | .inappropriateType _ code _ =>
    if errorNumber code = 20 then .noDirectory
    else if errorNumber code = 21 then .aDirectory else unnamed
  | .invalidArgument _ code _ => if errorNumber code = 36 then .tooLong else unnamed
  | _ => unnamed

/-- Does something that needs a file, or tells what is in the way. -/
def attempt {α : Type} (x : IO α) : IO (Except Obstacle α) := do
  try return .ok (← x) catch e => return .error (obstacleOf e)

/-- The surroundings of the program, as far as the names of some files lead. -/
def surroundings (names : List Text) : IO Surroundings := do
  let input ← if occursIn standardStream names then restOf (← IO.getStdin) else pure ""
  let found ← names.mapM fun name => do
    return (name, ← attempt (String.toList <$> IO.FS.readFile (String.ofList name)))
  return {
    input := input.toList
    read := fun name => (found.lookup name).getD (.error .absent)
    obstacle? := fun _ => none }

/-- Carries out what the command asks for, and gives its exit code. -/
def carryOut (outcome : Outcome) : IO UInt32 := do
  IO.print (String.ofList outcome.output)
  IO.eprint (String.ofList outcome.errors)
  match outcome.written? with
  | none => return UInt32.ofNat outcome.exitCode
  | some (name, content) =>
    match ← attempt (IO.FS.writeFile (String.ofList name) (String.ofList content)) with
    | .ok _ => return UInt32.ofNat outcome.exitCode
    | .error o =>
      let complaint := Complaint.unwritable name o
      IO.eprint (String.ofList complaint.report)
      return UInt32.ofNat complaint.exitCode

end PatternAutomata

open PatternAutomata in
/-- The command with the arguments of the program. -/
def main (arguments : List String) : IO UInt32 := do
  let arguments := arguments.map String.toList
  match runCommand arguments (← surroundings (filesToRead arguments)) with
  | .ok outcome => carryOut outcome
  | .error fault =>
    IO.eprintln (String.ofList fault.message)
    return 1
