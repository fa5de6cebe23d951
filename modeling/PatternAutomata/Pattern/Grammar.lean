import PatternAutomata.Pattern.Regex

/-!
# The grammar of patterns

How regular expressions are written.  An expression is one or more terms with `|` between them; a
term is one or more factors side by side; a factor is an atom and any number of `*`; an atom is a
literal or an expression in parentheses.  Unions and concatenations associate to the left, and any
expression may stand in more parentheses than it needs.

* `Level` — the four levels of the grammar;
* `Spells level r p` — the text `p` is a way to write `r` at a level;
* `InGrammar p` — the text `p` is empty or a way to write some expression;
* `Denotes p w` — the pattern `p` matches the text `w`; the empty pattern matches the empty text.
-/

namespace PatternAutomata

/-- The levels of the grammar. -/
inductive Level where
  | atom
  | factor
  | term
  | expression
  deriving DecidableEq, Repr

/-- Whether a character of a pattern stands for itself. -/
def IsLiteral (c : Symbol) : Prop := Operator.ofSymbol? c = none

/-- A text is a way to write an expression at a level. -/
inductive Spells : Level → Regex → Text → Prop where
  | literal {c : Symbol} : IsLiteral c → Spells .atom (.literal c) [c]
  | group {r : Regex} {p : Text} :
      Spells .expression r p → Spells .atom r ('(' :: p ++ [')'])
  | ofAtom {r : Regex} {p : Text} : Spells .atom r p → Spells .factor r p
  | star {r : Regex} {p : Text} : Spells .factor r p → Spells .factor (.star r) (p ++ ['*'])
  | ofFactor {r : Regex} {p : Text} : Spells .factor r p → Spells .term r p
  | concat {r s : Regex} {p q : Text} :
      Spells .term r p → Spells .factor s q → Spells .term (.concat r s) (p ++ q)
  | ofTerm {r : Regex} {p : Text} : Spells .term r p → Spells .expression r p
  | union {r s : Regex} {p q : Text} :
      Spells .expression r p → Spells .term s q → Spells .expression (.union r s) (p ++ '|' :: q)

/-- The texts that are patterns. -/
def InGrammar (p : Text) : Prop := p = [] ∨ ∃ r, Spells .expression r p

/-- The texts that a pattern matches. -/
def Denotes (p w : Text) : Prop :=
  (p = [] ∧ w = []) ∨ ∃ r, Spells .expression r p ∧ r.Matches w

namespace Spells

theorem ne_nil {l : Level} {r : Regex} {p : Text} (h : Spells l r p) : p ≠ [] := by
  induction h with
  | literal _ => simp
  | group _ _ => simp
  | ofAtom _ ih => exact ih
  | star _ _ => simp
  | ofFactor _ ih => exact ih
  | concat _ _ ih _ => simp [ih]
  | ofTerm _ ih => exact ih
  | union _ _ _ _ => simp

/-- An expression in parentheses can be written at every level. -/
theorem grouped {r : Regex} {p : Text} (h : Spells .expression r p) :
    ∀ l, Spells l r ('(' :: p ++ [')'])
  | .atom => .group h
  | .factor => .ofAtom (.group h)
  | .term => .ofFactor (.ofAtom (.group h))
  | .expression => .ofTerm (.ofFactor (.ofAtom (.group h)))

end Spells

end PatternAutomata
