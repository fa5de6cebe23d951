import PatternAutomata.Automaton.Path
import PatternAutomata.Compilation.Log
import PatternAutomata.Compilation.Survey
import PatternAutomata.Main
import PatternAutomata.Pattern.Grammar
import PatternAutomata.Proofs.Automaton.Admission
import PatternAutomata.Proofs.Automaton.ClosureSearch
import PatternAutomata.Proofs.Automaton.Idempotence
import PatternAutomata.Proofs.Automaton.JsonRendering
import PatternAutomata.Proofs.Automaton.LanguageLaws
import PatternAutomata.Proofs.Automaton.PathSemantics
import PatternAutomata.Proofs.Automaton.Redetermination
import PatternAutomata.Proofs.Automaton.Relabelling
import PatternAutomata.Proofs.Automaton.SafePruning
import PatternAutomata.Proofs.Automaton.Worklist
import PatternAutomata.Proofs.CommandLine.Calls
import PatternAutomata.Proofs.CommandLine.Verdicts
import PatternAutomata.Proofs.Compilation.Accounting
import PatternAutomata.Proofs.Compilation.CanonicalForm
import PatternAutomata.Proofs.Compilation.Classification
import PatternAutomata.Proofs.Compilation.Compositionality
import PatternAutomata.Proofs.Compilation.DeadEnds
import PatternAutomata.Proofs.Compilation.GraphSource
import PatternAutomata.Proofs.Compilation.Relocation
import PatternAutomata.Proofs.Compilation.Sequences
import PatternAutomata.Proofs.Pattern.Conservation
import PatternAutomata.Proofs.Session.Invariant
