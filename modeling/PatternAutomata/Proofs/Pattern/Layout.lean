import PatternAutomata.Proofs.Pattern.Operands

/-!
# Layouts of expressions

A layout is an expression with pairs of parentheses around any of its parts.  Written down, it has
these parentheses and those that precedence and left associativity ask for.  The layouts of an
expression are all the ways to write it.

* `Layout` — expressions with parentheses; `Layout.tree` — without them;
* `Layout.render` — a layout as a text, for a level of the grammar;
* `Layout.spells_render`, `Spells.exists_layout` — layouts are the ways to write an expression;
* `Layout.ofText_render` — the postfix form of a layout.
-/

namespace PatternAutomata

/-- An expression with pairs of parentheses around some of its parts. -/
inductive Layout where
  | literal (symbol : Symbol)
  | union (left right : Layout)
  | concat (left right : Layout)
  | star (body : Layout)
  | group (body : Layout)
  deriving DecidableEq, Repr

/-- A text that is spelt at the level `own`, with parentheses around it if the level `l` asks for
them. -/
def enclosed (l own : Level) (p : Text) : Text :=
  if l.tightness ≤ own.tightness then p else '(' :: p ++ [')']

namespace Layout

/-- The expression without the parentheses. -/
def tree : Layout → Regex
  | .literal c => .literal c
  | .union x y => .union x.tree y.tree
  | .concat x y => .concat x.tree y.tree
  | .star x => .star x.tree
  | .group x => x.tree

/-- The layout as a text at a level. -/
def render (l : Level) : Layout → Text
  | .literal c => [c]
  | .union x y => enclosed l .expression (x.render .expression ++ '|' :: y.render .term)
  | .concat x y => enclosed l .term (x.render .term ++ y.render .factor)
  | .star x => enclosed l .factor (x.render .factor ++ ['*'])
  | .group x => '(' :: x.render .expression ++ [')']

/-- All literals stand for themselves in a pattern. -/
def Plain : Layout → Prop
  | .literal c => IsLiteral c
  | .union x y => x.Plain ∧ y.Plain
  | .concat x y => x.Plain ∧ y.Plain
  | .star x => x.Plain
  | .group x => x.Plain

end Layout

variable {l m own : Level} {r : Regex} {p : Text} {x : Layout}

/-- What is spelt at a level is spelt at all looser ones. -/
theorem Spells.loosen (h : Spells m r p) (looser : l.tightness ≤ m.tightness) : Spells l r p := by
  have atom : Spells .atom r p → Spells .factor r p := .ofAtom
  have factor : Spells .factor r p → Spells .term r p := .ofFactor
  have term : Spells .term r p → Spells .expression r p := .ofTerm
  cases m with
  | atom =>
    cases l with
    | atom => exact h
    | factor => exact atom h
    | term => exact factor (atom h)
    | expression => exact term (factor (atom h))
  | factor =>
    cases l with
    | atom => exact absurd looser (by decide)
    | factor => exact h
    | term => exact factor h
    | expression => exact term (factor h)
  | term =>
    cases l with
    | atom => exact absurd looser (by decide)
    | factor => exact absurd looser (by decide)
    | term => exact h
    | expression => exact term h
  | expression =>
    cases l with
    | atom => exact absurd looser (by decide)
    | factor => exact absurd looser (by decide)
    | term => exact absurd looser (by decide)
    | expression => exact h

theorem Spells.enclosed (h : Spells own r p) : Spells l r (enclosed l own p) := by
  unfold PatternAutomata.enclosed
  split
  · next looser => exact h.loosen looser
  · have widest : Level.expression.tightness ≤ own.tightness := own.tightness_pos
    exact (h.loosen widest).grouped l

/-- A layout is written as its expression can be. -/
theorem Layout.spells_render (h : x.Plain) (l : Level) : Spells l x.tree (x.render l) := by
  induction x generalizing l with
  | literal c =>
    have atom : Spells .atom (.literal c) [c] := .literal h
    exact atom.loosen (by cases l <;> decide)
  | union x y ihx ihy => exact (Spells.union (ihx h.1 _) (ihy h.2 _)).enclosed
  | concat x y ihx ihy => exact (Spells.concat (ihx h.1 _) (ihy h.2 _)).enclosed
  | star x ih => exact (Spells.star (ih h _)).enclosed
  | group x ih => exact (ih h .expression).grouped l

/-- Every way to write an expression is one of its layouts, which needs no parentheses besides its
own at that level or a looser one. -/
theorem Spells.exists_layout (h : Spells l r p) :
    ∃ x : Layout, x.Plain ∧ x.tree = r ∧ ∀ m, m.tightness ≤ l.tightness → x.render m = p := by
  induction h with
  | @literal c hc => exact ⟨.literal c, hc, rfl, fun _ _ => rfl⟩
  | group _ ih =>
    obtain ⟨x, plain, rfl, render⟩ := ih
    refine ⟨.group x, plain, rfl, fun _ _ => ?_⟩
    rw [Layout.render, render .expression (Nat.le_refl _)]
  | ofAtom _ ih =>
    obtain ⟨x, plain, tree, render⟩ := ih
    exact ⟨x, plain, tree, fun m hm => render m (Nat.le_trans hm (by decide))⟩
  | star _ ih =>
    obtain ⟨x, plain, rfl, render⟩ := ih
    refine ⟨.star x, plain, rfl, fun m hm => ?_⟩
    rw [Layout.render, PatternAutomata.enclosed, if_pos hm, render .factor (Nat.le_refl _)]
  | ofFactor _ ih =>
    obtain ⟨x, plain, tree, render⟩ := ih
    exact ⟨x, plain, tree, fun m hm => render m (Nat.le_trans hm (by decide))⟩
  | concat _ _ ihx ihy =>
    obtain ⟨x, plainX, rfl, renderX⟩ := ihx
    obtain ⟨y, plainY, rfl, renderY⟩ := ihy
    refine ⟨.concat x y, ⟨plainX, plainY⟩, rfl, fun m hm => ?_⟩
    rw [Layout.render, PatternAutomata.enclosed, if_pos hm, renderX .term (Nat.le_refl _),
      renderY .factor (Nat.le_refl _)]
  | ofTerm _ ih =>
    obtain ⟨x, plain, tree, render⟩ := ih
    exact ⟨x, plain, tree, fun m hm => render m (Nat.le_trans hm (by decide))⟩
  | union _ _ ihx ihy =>
    obtain ⟨x, plainX, rfl, renderX⟩ := ihx
    obtain ⟨y, plainY, rfl, renderY⟩ := ihy
    refine ⟨.union x y, ⟨plainX, plainY⟩, rfl, fun m hm => ?_⟩
    rw [Layout.render, PatternAutomata.enclosed, if_pos hm, renderX .expression (Nat.le_refl _),
      renderY .term (Nat.le_refl _)]

/-- A layout is rearranged into the postfix tokens of its expression. -/
theorem Layout.ofText_render (h : x.Plain) :
    Postfix.ofText (x.render .expression) = .ok x.tree.postorder :=
  Postfix.ofText_eq_of_spells (x.spells_render h .expression)

/-- Parentheses stand where precedence and left associativity ask for them, and where the layout has
more. -/
example : String.ofList ((Layout.concat (.literal 'a')
    (.concat (.group (.group (.literal 'b')))
      (.star (.union (.literal 'c') (.literal 'd'))))).render .expression) = "a(((b))(c|d)*)" := by
  decide

end PatternAutomata
