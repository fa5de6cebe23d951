import PatternAutomata.Compilation.Form
import PatternAutomata.Compilation.Stages

/-!
# Surveys

How the three forms of one pattern answer the same texts.

* `Survey.Row` — the size of one form and its answers;
* `Survey.ofPattern` — the rows of all forms, each compiled anew;
* `wordsBelow` — all texts over some symbols below a length, to be used as the texts of a survey.
-/

namespace PatternAutomata

/-- All texts of `n` of the given pieces, the last place varying fastest. -/
def wordsOfLength (pieces : List Text) : (n : Nat) → List Text
  | 0 => [[]]
  | n + 1 => pieces.flatMap fun p => (wordsOfLength pieces n).map (p ++ ·)

/-- All texts of fewer than `bound` of the given pieces, the shorter ones first. -/
def wordsBelow (bound : Nat) (pieces : List Text) : List Text :=
  (List.range bound).flatMap (wordsOfLength pieces)

namespace Survey

/-- The size of one form of a pattern, and which of the texts it accepts. -/
structure Row where
  form : Form
  states : Nat
  transitions : Nat
  accepted : List Bool
  deriving DecidableEq

/-- The row of one form, compiled anew. -/
def row (pattern : Text) (texts : List Text) (form : Form) : Fresh Row := do
  let A ← compile pattern form.flags
  return ⟨form, A.stateCount, A.transitionCount, texts.map A.accepts⟩

/-- The rows of all forms. -/
def ofPattern (pattern : Text) (texts : List Text) : Fresh (List Row) :=
  Form.all.mapM (row pattern texts)

end Survey

end PatternAutomata
