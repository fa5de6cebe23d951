import PatternAutomata.Compilation.Stages

/-!
# The log of a compilation

What the stages of a compilation report.  Making an automaton deterministic or minimal always
reports the sizes before and after; with the flag for reports, each stage also reports its result
under the pattern.

* `LogRecord` — one report;
* `Stages.log` — the reports of a compilation, in order.
-/

namespace PatternAutomata

/-- The part of the program that reports. -/
inductive Reporter where
  | construction
  | conversion
  deriving DecidableEq, Repr

/-- The name under which a part reports. -/
def Reporter.name : Reporter → Text
  | .construction => "regfa.thompson".toList
  | .conversion => "regfa.dfa".toList

/-- One report. -/
structure LogRecord where
  reporter : Reporter
  message : Text
  deriving DecidableEq

/-- The importance of all reports. -/
def LogRecord.level : Text := "DEBUG".toList

namespace Stages

/-- A number in a report. -/
def count (n : Nat) : Text := decimal n

/-- The report of making an automaton deterministic. -/
def subsetReport (before after : Automaton) : LogRecord :=
  ⟨.conversion, "subset construction: ".toList ++ count before.stateCount
    ++ " NFA states -> ".toList ++ count after.stateCount ++ " DFA states".toList⟩

/-- The reports of making a deterministic automaton minimal.  Unreachable states are mentioned if
there are any. -/
def minimalReports (before after : Automaton) : List LogRecord :=
  let unreachable := before.unreachableCount
  let pruning : List LogRecord :=
    if unreachable = 0 then []
    else [⟨.conversion, "pruning ".toList ++ count unreachable ++ " unreachable states".toList⟩]
  pruning ++
    [⟨.conversion, "minimization: ".toList ++ count (before.stateCount - unreachable)
      ++ " DFA states -> ".toList ++ count after.stateCount ++ " states".toList⟩]

/-- A report under the pattern. -/
def patternReport (pattern message : Text) : LogRecord :=
  ⟨.construction, quoted pattern ++ ": ".toList ++ message⟩

/-- The reports of the construction, if they are asked for. -/
def constructionReports (pattern : Text) (debug : Bool) (s : Stages) : List LogRecord :=
  if debug then
    [patternReport pattern <|
      "postfix ".toList ++ quoted (Token.spelling s.postfixTokens)
        ++ ", NFA with ".toList ++ count s.nfa.stateCount
        ++ " states and ".toList ++ count s.nfa.transitionCount ++ " transitions".toList]
  else []

/-- The reports of making the automaton deterministic, if that was done. -/
def deterministicReports (pattern : Text) (debug : Bool) (s : Stages) : List LogRecord :=
  match s.dfa? with
  | none => []
  | some D =>
    subsetReport s.nfa D ::
      if debug then
        [patternReport pattern <|
          "DFA with ".toList ++ count D.stateCount ++ " states".toList]
      else []

/-- The reports of making the automaton minimal, if that was done. -/
def minimizationReports (pattern : Text) (debug : Bool) (s : Stages) : List LogRecord :=
  match s.minimal? with
  | none => []
  | some M =>
    minimalReports (s.dfa?.getD s.nfa) M ++
      if debug then
        [patternReport pattern <|
          "minimal DFA with ".toList ++ count M.stateCount ++ " states".toList]
      else []

/-- The reports of a compilation, in order. -/
def log (pattern : Text) (debug : Bool) (s : Stages) : List LogRecord :=
  constructionReports pattern debug s ++ deterministicReports pattern debug s
    ++ minimizationReports pattern debug s

end Stages

end PatternAutomata
