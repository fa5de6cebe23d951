import PatternAutomata.Pattern.ParseError

/-!
# Postfix notation

Explicit infix tokens are rearranged into postfix notation in one pass.  A literal is written at
once; an operator waits until an operator arrives that binds no tighter, or its group is closed, or
the pattern ends.

* `Yard` — what has been written, what waits, and the token before;
* `Yard.shift` — one token; `Yard.finish` — the end of the pattern;
* `Postfix.ofText` — the postfix tokens of a pattern, and `Postfix.summary`, which shows both;
* `Yard.run_append` — a run over two pieces is a run over the first and then over the second.
-/

namespace PatternAutomata

/-- The state of the rearrangement. -/
structure Yard where
  /-- The postfix tokens written so far. -/
  output : List Token
  /-- The operators that wait, the latest first, with their positions. -/
  waiting : List (Int × Operator)
  /-- The token before the next one. -/
  previous : Option Token
  deriving DecidableEq

namespace Yard

/-- Nothing written, nothing waiting. -/
def empty : Yard := ⟨[], [], none⟩

/-- The waiting operators that satisfy `p`, up to the first that does not, as written tokens. -/
def released (p : Operator → Bool) (waiting : List (Int × Operator)) : List Token :=
  (waiting.takeWhile fun w => p w.2).map fun w => .operator w.2

/-- The operators that go on waiting when those of `released` are written. -/
def retained (p : Operator → Bool) (waiting : List (Int × Operator)) : List (Int × Operator) :=
  waiting.dropWhile fun w => p w.2

/-- Whether a waiting operator is written before the operator `o` goes to wait: it is no open group,
and it binds at least as tightly.  All operators associate to the left. -/
def yieldsTo (o waiting : Operator) : Bool :=
  waiting ≠ .leftParen && o.precedence ≤ waiting.precedence

/-- Takes one token. -/
def shift (y : Yard) (t : PlacedToken) : Except ParseError Yard :=
  match t.token with
  | .literal c => .ok ⟨y.output ++ [.literal c], y.waiting, some t.token⟩
  | .operator .leftParen =>
    .ok ⟨y.output, (t.position, .leftParen) :: y.waiting, some t.token⟩
  | .operator .rightParen =>
    if y.previous = some (.operator .leftParen) then .error (.emptyGroup t.position)
    else
      match retained (· ≠ .leftParen) y.waiting with
      | [] => .error (.unmatchedClose t.position)
      | _ :: outer =>
        .ok ⟨y.output ++ released (· ≠ .leftParen) y.waiting, outer, some t.token⟩
  | .operator o =>
    .ok ⟨y.output ++ released (yieldsTo o) y.waiting,
      (t.position, o) :: retained (yieldsTo o) y.waiting, some t.token⟩

/-- Takes the tokens one after the other. -/
def run (y : Yard) : List PlacedToken → Except ParseError Yard
  | [] => .ok y
  | t :: rest => do (← y.shift t).run rest

/-- The waiting operators as written tokens; an open group among them is never closed. -/
def flush : List (Int × Operator) → Except ParseError (List Token)
  | [] => .ok []
  | (position, .leftParen) :: _ => .error (.unmatchedOpen position)
  | (_, o) :: rest => do return .operator o :: (← flush rest)

/-- Writes everything that still waits. -/
def finish (y : Yard) : Except ParseError (List Token) := do
  return y.output ++ (← flush y.waiting)

theorem run_append (y : Yard) (s t : List PlacedToken) :
    y.run (s ++ t) = (y.run s).bind fun z => z.run t := by
  induction s generalizing y with
  | nil => rfl
  | cons a s ih =>
    show (y.shift a).bind (fun z => z.run (s ++ t))
      = ((y.shift a).bind fun z => z.run s).bind fun z => z.run t
    cases y.shift a with
    | error e => rfl
    | ok z => exact ih z

end Yard

namespace Postfix

/-- The postfix order of explicit infix tokens. -/
def ofTokens (tokens : List PlacedToken) : Except ParseError (List Token) := do
  (← Yard.empty.run tokens).finish

/-- The postfix tokens of a pattern. -/
def ofText (pattern : Text) : Except ParseError (List Token) :=
  ofTokens (PlacedToken.explicit (PlacedToken.tokenize pattern))

/-- A pattern and its postfix tokens on one line. -/
def summary (pattern : Text) (tokens : List Token) : Text :=
  "RegexParser(regexp=".toList ++ quoted pattern ++ ", postfix=".toList
    ++ quoted (Token.spelling tokens) ++ [')']

end Postfix

end PatternAutomata
