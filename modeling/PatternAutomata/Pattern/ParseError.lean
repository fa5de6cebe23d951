import PatternAutomata.Pattern.Token
import PatternAutomata.Text.Quoted

/-!
# Parse errors

What can be wrong with a pattern, or with a sequence of postfix tokens, and how it is reported.

* `ParseError` — the causes;
* `ParseError.family` — the two families of causes: parentheses without a partner, and everything
  else;
* `Diagnostic` — a message and the place that it blames; the place is shown only if there is one.
-/

namespace PatternAutomata

/-- Why a pattern or a postfix sequence denotes nothing. -/
inductive ParseError where
  /-- The `)` at this position closes nothing. -/
  | unmatchedClose (position : Int)
  /-- The `(` at this position is never closed. -/
  | unmatchedOpen (position : Int)
  /-- The `)` at this position directly follows a `(`. -/
  | emptyGroup (position : Int)
  /-- An operator finds fewer operands than it combines. -/
  | missingOperand (operator : Operator)
  /-- A postfix sequence holds a parenthesis. -/
  | strayParenthesis (operator : Operator)
  /-- A postfix sequence leaves this many operands side by side. -/
  | leftoverOperands (count : Nat)
  deriving DecidableEq, Repr

/-- The families of parse errors. -/
inductive ParseError.Family where
  | unbalancedParentheses
  | malformedExpression
  deriving DecidableEq, Repr

/-- A message with the position that it blames, negative if it blames none. -/
structure Diagnostic where
  message : Text
  position : Int := -1
  deriving DecidableEq

/-- The message, followed by the position if there is one. -/
def Diagnostic.text (d : Diagnostic) : Text :=
  if 0 ≤ d.position then d.message ++ " at position ".toList ++ decimal d.position else d.message

namespace ParseError

/-- The family of an error. -/
def family : ParseError → Family
  | .unmatchedClose _ => .unbalancedParentheses
  | .unmatchedOpen _ => .unbalancedParentheses
  | .emptyGroup _ => .malformedExpression
  | .missingOperand _ => .malformedExpression
  | .strayParenthesis _ => .malformedExpression
  | .leftoverOperands _ => .malformedExpression

/-- The report of an error. -/
def diagnostic : ParseError → Diagnostic
  | .unmatchedClose n => ⟨"unmatched ".toList ++ quoted [Operator.rightParen.sign], n⟩
  | .unmatchedOpen n => ⟨"unmatched ".toList ++ quoted [Operator.leftParen.sign], n⟩
  | .emptyGroup n => ⟨"empty group".toList, n⟩
  | .missingOperand o => ⟨"missing operand for ".toList ++ quoted [o.sign], -1⟩
  | .strayParenthesis o =>
    ⟨"unexpected token Op(".toList ++ [o.sign] ++ ") in postfix".toList, -1⟩
  | .leftoverOperands n =>
    ⟨"expected a single automaton after construction, got ".toList ++ decimal n, -1⟩

/-- The full text of an error. -/
def message (e : ParseError) : Text := e.diagnostic.text

/-- The position that an error blames, negative if it blames none. -/
def position (e : ParseError) : Int := e.diagnostic.position

end ParseError

end PatternAutomata
