import PatternAutomata.CommandLine.Complaint
import PatternAutomata.Text.Resemblance

/-!
# Command line arguments

The options of the command and how they are read.  An option has a long spelling, with its value
attached by an equals sign or in the next argument, and may have a short one, which can stand in a
cluster of short options; in a cluster an option that takes a value takes all that is left, or else
the next argument.  The argument `--` ends the options.

* `Switch` — the options;
* `suggestions` — the options that a misspelt one may stand for;
* `Arguments.read` — the options that are given, with their values, and the other arguments.
-/

namespace PatternAutomata

/-- The options of the command. -/
inductive Switch where
  | text
  | inputFile
  | output
  | form
  | listing
  | debug
  deriving DecidableEq, Repr

namespace Switch

/-- All options. -/
def all : List Switch := [.text, .inputFile, .output, .form, .listing, .debug]

/-- The long spelling. -/
def long : Switch → Text
  | .text => "--text".toList
  | .inputFile => "--input-file".toList
  | .output => "--out".toList
  | .form => "--form".toList
  | .listing => "--show".toList
  | .debug => "--debug".toList

/-- The letter of the short spelling, if there is one. -/
def letter? : Switch → Option Char
  | .text => some 't'
  | .inputFile => none
  | .output => some 'o'
  | .form => some 'f'
  | .listing => some 's'
  | .debug => some 'g'

/-- Whether the option takes a value. -/
def takesValue : Switch → Bool
  | .listing => false
  | .debug => false
  | _ => true

/-- The option with a long spelling. -/
def ofLong? (t : Text) : Option Switch := all.find? fun s => s.long = t

/-- The option with a letter. -/
def ofLetter? (c : Char) : Option Switch := all.find? fun s => s.letter? = some c

end Switch

/-- Long spellings in alphabetical order that a misspelt one may stand for: those of the options,
and the two that ask for a drawing and for help, which are left to whoever calls the command. -/
def longSpellings : List Text :=
  ["--debug".toList, "--form".toList, "--graph".toList, "--help".toList, "--input-file".toList,
    "--out".toList, "--show".toList, "--text".toList]

/-- The long spellings that an unknown one may stand for. -/
def suggestions (spelling : Text) : List Text := nearest 3 longSpellings spelling

/-- The arguments of a command, sorted into options and the rest. -/
structure Arguments where
  /-- The options in the order in which they are given, with their values. -/
  options : List (Switch × Text)
  /-- The other arguments in their order. -/
  positional : List Text
  deriving DecidableEq

namespace Arguments

/-- What one argument and the arguments after it amount to: the options that it holds, and how the
reading goes on. -/
structure Reading where
  options : List (Switch × Text)
  rest : List Text

/-- Reads the value of an option from the next argument. -/
def valueFrom (s : Switch) (spelling : Text) : List Text → Except Complaint Reading
  | [] => .error (.missingValue spelling)
  | value :: rest => .ok ⟨[(s, value)], rest⟩

/-- Reads a cluster of short options. -/
def readCluster : (letters : Text) → List Text → Except Complaint Reading
  | [], rest => .ok ⟨[], rest⟩
  | c :: letters, rest =>
    match Switch.ofLetter? c with
    | none => .error (.noSuchOption ['-', c] [])
    | some s =>
      if s.takesValue then
        if letters.isEmpty then valueFrom s ['-', c] rest else .ok ⟨[(s, letters)], rest⟩
      else do
        let r ← readCluster letters rest
        return ⟨(s, []) :: r.options, r.rest⟩

/-- Reads a long option, with the value that is attached to it. -/
def readLong (s : Switch) (attached : Option Text) (rest : List Text) : Except Complaint Reading :=
  match attached with
  | some value =>
    if s.takesValue then .ok ⟨[(s, value)], rest⟩ else .error (.unwantedValue s.long)
  | none => if s.takesValue then valueFrom s s.long rest else .ok ⟨[(s, [])], rest⟩

/-- Splits an argument at its first equals sign. -/
def splitValue (argument : Text) : Text × Option Text :=
  match argument.dropWhile (· ≠ '=') with
  | [] => (argument, none)
  | _ :: value => (argument.takeWhile (· ≠ '='), some value)

/-- Reads an argument that starts with a minus sign. -/
def readOption (argument : Text) (rest : List Text) : Except Complaint Reading :=
  let (spelling, attached) := splitValue argument
  match Switch.ofLong? spelling with
  | some s => readLong s attached rest
  | none =>
    match argument with
    | '-' :: '-' :: _ => .error (.noSuchOption spelling (suggestions spelling))
    | _ => readCluster argument.tail rest

/-- Whether an argument holds options. -/
def isOption : Text → Bool
  | '-' :: _ :: _ => true
  | _ => false

/-- Reads at most `fuel` arguments. -/
def readFrom : (fuel : Nat) → List Text → Except Complaint Arguments
  | 0, _ => .ok ⟨[], []⟩
  | _ + 1, [] => .ok ⟨[], []⟩
  | fuel + 1, argument :: rest =>
    if argument = "--".toList then .ok ⟨[], rest⟩
    else if isOption argument then do
      let r ← readOption argument rest
      let later ← readFrom fuel r.rest
      return ⟨r.options ++ later.options, later.positional⟩
    else do
      let later ← readFrom fuel rest
      return ⟨later.options, argument :: later.positional⟩

/-- Sorts arguments into options and the rest. -/
def read (arguments : List Text) : Except Complaint Arguments :=
  readFrom arguments.length arguments

/-- The values that are given for an option, in their order. -/
def values (a : Arguments) (s : Switch) : List Text :=
  (a.options.filter fun o => o.1 = s).map Prod.snd

/-- The last value that is given for an option. -/
def value? (a : Arguments) (s : Switch) : Option Text := (a.values s).getLast?

/-- Whether an option is given. -/
def has (a : Arguments) (s : Switch) : Bool := a.options.any fun o => o.1 = s

end Arguments

end PatternAutomata
