import PatternAutomata.CommandLine.FileTree
import PatternAutomata.CommandLine.Lines
import PatternAutomata.Compilation.Form
import PatternAutomata.Pattern.ParseError
import PatternAutomata.Text.Control
import PatternAutomata.Text.Quoted

/-!
# Complaints

What the command says when it cannot do what it is asked to do.

* `Complaint` — the causes;
* `Complaint.message` — the words for each of them;
* `Complaint.showsUsage`, `Complaint.report` — what is written to the standard error output: the
  words, without control sequences and with line feeds at the ends of lines, after a reminder how
  the command is called if they are about how it was called;
* `Complaint.exitCode` — the exit code.
-/

namespace PatternAutomata

/-- Why the command cannot do what it is asked to do. -/
inductive Complaint where
  /-- No option is spelt so; some that may be meant are. -/
  | noSuchOption (spelling : Text) (meant : List Text)
  | missingValue (spelling : Text)
  | unwantedValue (spelling : Text)
  | badForm (value : Text)
  /-- The input file cannot be read. -/
  | unreadable (name : Text) (obstacle : Obstacle)
  | missingPattern
  | extraArguments (arguments : List Text)
  | badPattern (error : ParseError)
  /-- The output file cannot be written. -/
  | unwritable (name : Text) (obstacle : Obstacle)
  deriving DecidableEq

namespace Complaint

/-- A question whether one of some spellings is meant, if there are any. -/
def question : List Text → Text
  | [] => []
  | [s] => " Did you mean ".toList ++ quoted s ++ ['?']
  | meant =>
    " (Did you mean one of: ".toList ++ joined ", ".toList (meant.map quoted) ++ "?)".toList

/-- The words for a complaint. -/
def message : Complaint → Text
  | .noSuchOption s meant => "No such option ".toList ++ quoted s ++ ['.'] ++ question meant
  | .missingValue s => "Option ".toList ++ quoted s ++ " requires an argument.".toList
  | .unwantedValue s => "Option ".toList ++ quoted s ++ " does not take a value.".toList
  | .badForm v =>
    "Invalid value for '--form' / '-f': ".toList ++ quoted v ++ " is not one of ".toList
      ++ joined ", ".toList (Form.all.map fun form => quoted form.name) ++ ['.']
  | .unreadable name o =>
    "Invalid value for '--input-file': '".toList ++ name ++ "': ".toList ++ o.reason
  | .missingPattern => "Missing argument 'PATTERN'.".toList
  | .extraArguments arguments =>
    "Got unexpected extra argument".toList ++ (if arguments.length = 1 then [] else ['s'])
      ++ " (".toList ++ joined [' '] arguments ++ [')']
  | .badPattern e => "Invalid value for PATTERN: ".toList ++ e.message
  | .unwritable name o => "Could not open file ".toList ++ quoted name ++ ": ".toList ++ o.reason

/-- Whether the words come after a reminder how the command is called.  They do not if an option
has a value too few or too many, or if it is the output file that fails. -/
def showsUsage : Complaint → Bool
  | .missingValue _ => false
  | .unwantedValue _ => false
  | .unwritable _ _ => false
  | _ => true

/-- How the command is called. -/
def usage : Text := "Usage: regfa [OPTIONS] PATTERN\nTry 'regfa --help' for help.\n\n".toList

/-- What is written about a complaint. -/
def report (c : Complaint) : Text :=
  (if c.showsUsage then usage else [])
    ++ withLineFeeds (withoutControls ("Error: ".toList ++ c.message ++ ['\n']))

/-- The exit code: 2 for a wrong call, 1 if it is the output file that fails. -/
def exitCode : Complaint → Nat
  | .unwritable _ _ => 1
  | _ => 2

end Complaint

end PatternAutomata
