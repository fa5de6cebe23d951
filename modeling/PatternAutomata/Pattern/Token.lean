import PatternAutomata.Label

/-!
# Tokens of a pattern

A pattern is a text in which `|`, `*`, `(` and `)` are operators and every other character stands
for itself.  Juxtaposition is written with no sign; `explicit` puts a concatenation operator
wherever a token that ends an operand stands directly before a token that starts one.

* `tokenize` — the tokens of a text with their positions;
* `explicit` — the tokens with every juxtaposition made explicit;
* `length_tokenize` — there is one token for each character;
* `Juxtaposed` — the pairs of neighbours between which `explicit` inserts.
-/

namespace PatternAutomata

/-- The operators of a pattern, in infix and in postfix notation. -/
inductive Operator where
  | union
  | concatenation
  | star
  | leftParen
  | rightParen
  deriving DecidableEq, Repr

/-- The sign of an operator. -/
def Operator.sign : Operator → Symbol
  | .union => '|'
  | .concatenation => '.'
  | .star => '*'
  | .leftParen => '('
  | .rightParen => ')'

/-- How tightly an operator binds.  A parenthesis binds nothing. -/
def Operator.precedence : Operator → Nat
  | .union => 1
  | .concatenation => 2
  | .star => 3
  | .leftParen => 0
  | .rightParen => 0

/-- The operator that a character of a pattern stands for.  Concatenation has no sign there, so that
a dot is an ordinary character. -/
def Operator.ofSymbol? (c : Symbol) : Option Operator :=
  if c = '|' then some .union
  else if c = '*' then some .star
  else if c = '(' then some .leftParen
  else if c = ')' then some .rightParen
  else none

/-- One item of a pattern. -/
inductive Token where
  | literal (symbol : Symbol)
  | operator (operator : Operator)
  deriving DecidableEq, Repr

namespace Token

/-- The character of a token. -/
def sign : Token → Symbol
  | .literal c => c
  | .operator o => o.sign

/-- The token that a character of a pattern stands for. -/
def ofSymbol (c : Symbol) : Token :=
  match Operator.ofSymbol? c with
  | some o => .operator o
  | none => .literal c

/-- Whether a token is the last one of an operand. -/
def endsOperand : Token → Bool
  | .literal _ => true
  | .operator .rightParen => true
  | .operator .star => true
  | .operator _ => false

/-- Whether a token is the first one of an operand. -/
def startsOperand : Token → Bool
  | .literal _ => true
  | .operator .leftParen => true
  | .operator _ => false

/-- Two neighbours between which a concatenation is meant. -/
def Juxtaposed (s t : Token) : Prop := s.endsOperand = true ∧ t.startsOperand = true

instance (s t : Token) : Decidable (Juxtaposed s t) :=
  inferInstanceAs (Decidable (_ ∧ _))

/-- A concatenation starts no operand. -/
theorem not_juxtaposed_concatenation (s : Token) : ¬ s.Juxtaposed (.operator .concatenation) := by
  intro juxtaposed
  cases juxtaposed.2

/-- A concatenation ends no operand. -/
theorem concatenation_not_juxtaposed (t : Token) : ¬ Juxtaposed (.operator .concatenation) t := by
  intro juxtaposed
  cases juxtaposed.1

/-- A sequence of tokens as the text of their signs. -/
def spelling (tokens : List Token) : Text := tokens.map sign

end Token

/-- A token together with its position in the pattern. -/
structure PlacedToken where
  position : Int
  token : Token
  deriving DecidableEq, Repr

namespace PlacedToken

/-- The tokens of a text whose first character has the given position. -/
def tokenizeFrom (position : Int) : Text → List PlacedToken
  | [] => []
  | c :: rest => ⟨position, Token.ofSymbol c⟩ :: tokenizeFrom (position + 1) rest

/-- The tokens of a text, one for each character. -/
def tokenize (text : Text) : List PlacedToken := tokenizeFrom 0 text

/-- Puts a concatenation operator between juxtaposed neighbours.  It takes the position of the token
after it. -/
def explicit : List PlacedToken → List PlacedToken
  | [] => []
  | [t] => [t]
  | s :: t :: rest =>
    if s.token.Juxtaposed t.token then
      s :: ⟨t.position, .operator .concatenation⟩ :: explicit (t :: rest)
    else
      s :: explicit (t :: rest)

/-! ### One token for each character -/

theorem length_tokenizeFrom (position : Int) (text : Text) :
    (tokenizeFrom position text).length = text.length := by
  induction text generalizing position with
  | nil => rfl
  | cons c rest ih => simp [tokenizeFrom, ih]

theorem length_tokenize (text : Text) : (tokenize text).length = text.length :=
  length_tokenizeFrom 0 text

theorem map_token_tokenizeFrom (position : Int) (text : Text) :
    (tokenizeFrom position text).map PlacedToken.token = text.map Token.ofSymbol := by
  induction text generalizing position with
  | nil => rfl
  | cons c rest ih => simp [tokenizeFrom, ih]

/-- The signs of the tokens are the characters of the text. -/
theorem sign_ofSymbol (c : Symbol) : (Token.ofSymbol c).sign = c := by
  unfold Token.ofSymbol Operator.ofSymbol?
  by_cases union : c = '|'
  · simp [union, Token.sign, Operator.sign]
  by_cases star : c = '*'
  · simp [star, Token.sign, Operator.sign]
  by_cases left : c = '('
  · simp [left, Token.sign, Operator.sign]
  by_cases right : c = ')'
  · simp [right, Token.sign, Operator.sign]
  simp [union, star, left, right, Token.sign]

theorem spelling_tokenize (text : Text) :
    Token.spelling ((tokenize text).map PlacedToken.token) = text := by
  simp [tokenize, map_token_tokenizeFrom, Token.spelling, Function.comp_def, sign_ofSymbol]

end PlacedToken

end PatternAutomata
