import PatternAutomata.Pattern.Grammar
import PatternAutomata.Proofs.Pattern.Reading

/-!
# Every way to write an expression gives its postfix form

Reading an operand writes a part of its postfix tokens and leaves the rest waiting, all of it
binding at least as tightly as the level of the operand.  Whatever waited before stays there, since
the next operator of the level releases all that came after.

* `Level.tightness` — how tightly operators of a level bind at least;
* `Yard.Awaits` — the operand of a level can be read next;
* `Yard.Reads` — what has happened when it has been read;
* `Yard.Reads.shift_operator`, `Yard.Reads.shift_rightParen` — the operator or parenthesis after it;
* `Yard.exists_read_spells` — reading a way to write an expression, by induction on it;
* `Postfix.ofText_eq_of_spells` — the postfix form.
-/

namespace PatternAutomata

/-- How tightly an operator of a level binds at least.  An atom has no operator. -/
def Level.tightness : Level → Nat
  | .expression => 1
  | .term => 2
  | .factor => 3
  | .atom => 4

theorem Level.tightness_pos (l : Level) : 1 ≤ l.tightness := by
  cases l <;> decide

theorem Operator.ne_leftParen_of_lt {o : Operator} (h : 1 ≤ o.precedence) : o ≠ .leftParen := by
  intro same
  subst same
  exact absurd h (by decide)

theorem ofSymbol_of_isLiteral {c : Symbol} (h : IsLiteral c) : Token.ofSymbol c = .literal c := by
  unfold IsLiteral at h
  unfold Token.ofSymbol
  rw [h]

/-- A way to write an expression starts with a token that starts an operand. -/
theorem Spells.exists_cons {l : Level} {r : Regex} {p : Text} (h : Spells l r p) :
    ∃ c q, p = c :: q ∧ (Token.ofSymbol c).startsOperand = true := by
  induction h with
  | @literal c hc =>
    refine ⟨c, [], rfl, ?_⟩
    rw [ofSymbol_of_isLiteral hc]
    rfl
  | group _ _ => exact ⟨'(', _, rfl, rfl⟩
  | ofAtom _ ih => exact ih
  | star _ ih =>
    obtain ⟨c, q, rfl, hc⟩ := ih
    exact ⟨c, _, rfl, hc⟩
  | ofFactor _ ih => exact ih
  | concat _ _ ih _ =>
    obtain ⟨c, q, rfl, hc⟩ := ih
    exact ⟨c, _, rfl, hc⟩
  | ofTerm _ ih => exact ih
  | union _ _ ih _ =>
    obtain ⟨c, q, rfl, hc⟩ := ih
    exact ⟨c, _, rfl, hc⟩

namespace Yard

open PlacedToken

variable {x y z : Yard} {l m : Level} {o : Operator} {n : Int} {tokens : List Token} {c : Symbol}
  {p q : Text} {r : Regex}

/-! ### Before and after an operand -/

/-- An operand of the level can be read next: no operand has just ended, and the operator that waits
binds less tightly than those of the level. -/
structure Awaits (l : Level) (y : Yard) : Prop where
  previous : ∀ t ∈ y.previous, t.endsOperand = false
  waiting : ∀ w ∈ y.waiting.head?, w.2.precedence < l.tightness

/-- From `y` to `z` an operand of the level with the given postfix tokens has been read: they have
been written, but for operators that bind at least as tightly as those of the level. -/
structure Reads (l : Level) (tokens : List Token) (y z : Yard) : Prop where
  exists_parts : ∃ written ops, z.output = y.output ++ written ∧ z.waiting = ops ++ y.waiting ∧
    (∀ w ∈ ops, l.tightness ≤ w.2.precedence) ∧
    written ++ asTokens ops = tokens
  endsOperand : ∃ t, z.previous = some t ∧ t.endsOperand = true

theorem Awaits.mono (h : y.Awaits l) (hlm : l.tightness ≤ m.tightness) : y.Awaits m where
  previous := h.previous
  waiting := fun w hw => Nat.lt_of_lt_of_le (h.waiting w hw) hlm

theorem Reads.mono (h : Reads m tokens y z) (hlm : l.tightness ≤ m.tightness) :
    Reads l tokens y z := by
  obtain ⟨written, ops, output, waiting, tight, all⟩ := h.exists_parts
  exact ⟨⟨written, ops, output, waiting, fun w hw => Nat.le_trans hlm (tight w hw), all⟩,
    h.endsOperand⟩

/-- After an operator, the operand of a level whose operators bind more tightly can be read. -/
theorem awaits_after_operator (weaker : o.precedence < l.tightness)
    (opens : (Token.operator o).endsOperand = false) (output : List Token)
    (waiting : List (Int × Operator)) (n : Int) :
    Awaits l ⟨output, (n, o) :: waiting, some (.operator o)⟩ := by
  constructor
  · intro t ht
    cases ht
    exact opens
  · intro w hw
    cases hw
    exact weaker

/-- An operator that binds no tighter than the level of the operand before it, and tighter than what
waited before that, goes to wait when the whole operand is written. -/
theorem Reads.shift_operator (h : Reads l tokens y z) (n : Int)
    (weaker : o.precedence ≤ l.tightness)
    (tighter : ∀ w ∈ y.waiting.head?, w.2.precedence < o.precedence) (left : o ≠ .leftParen)
    (right : o ≠ .rightParen) :
    z.shift ⟨n, .operator o⟩ =
      .ok ⟨y.output ++ tokens, (n, o) :: y.waiting, some (.operator o)⟩ := by
  obtain ⟨written, ops, output, waiting, tight, all⟩ := h.exists_parts
  have yields : ∀ w ∈ ops, yieldsTo o w.2 = true := by
    intro w hw
    have binds := tight w hw
    have positive := l.tightness_pos
    unfold yieldsTo
    rw [Bool.and_eq_true]
    refine ⟨decide_eq_true ?_, decide_eq_true (by omega)⟩
    exact Operator.ne_leftParen_of_lt (by omega)
  have stays : ∀ w ∈ y.waiting.head?, yieldsTo o w.2 = false := by
    intro w hw
    have binds := tighter w hw
    unfold yieldsTo
    rw [Bool.and_eq_false_iff]
    exact Or.inr (decide_eq_false (by omega))
  rw [Yard.shift_operator z n left right, waiting, released_append yields stays,
    retained_append yields stays, output, List.append_assoc, all]

/-- A parenthesis closes the group in which an expression has been read. -/
theorem Reads.shift_rightParen {k : Int} {outer : List (Int × Operator)}
    (h : Reads .expression tokens y z) (waits : y.waiting = (k, .leftParen) :: outer) :
    z.shift ⟨n, .operator .rightParen⟩ =
      .ok ⟨y.output ++ tokens, outer, some (.operator .rightParen)⟩ := by
  obtain ⟨written, ops, output, waiting, tight, all⟩ := h.exists_parts
  obtain ⟨t, previous, ends⟩ := h.endsOperand
  rw [waits] at waiting
  have inner : ∀ w ∈ ops, decide (w.2 ≠ .leftParen) = true := by
    intro w hw
    exact decide_eq_true (Operator.ne_leftParen_of_lt (tight w hw))
  have opened : ∀ w ∈ List.head? ((k, Operator.leftParen) :: outer),
      decide (w.2 ≠ .leftParen) = false := by
    intro w hw
    cases hw
    rfl
  have not_empty : z.previous ≠ some (.operator .leftParen) := by
    intro same
    rw [previous] at same
    cases same
    exact absurd ends (by decide)
  have rest : retained (· ≠ .leftParen) z.waiting = (k, .leftParen) :: outer := by
    rw [waiting, retained_append (p := fun o => decide (o ≠ .leftParen)) inner opened]
  rw [Yard.shift_rightParen not_empty rest, waiting,
    released_append (p := fun o => decide (o ≠ .leftParen)) inner opened, output,
    List.append_assoc, all]

/-! ### The token after an operand -/

/-- Where no operand has just ended, and after one no other starts, nothing is put in. -/
theorem take_of_not_endsOperand {t : PlacedToken} (h : ∀ s ∈ y.previous, s.endsOperand = false) :
    y.take t = y.shift t := by
  apply take_of_not_juxtaposed
  intro s hs joined
  have ends := joined.1
  rw [h s hs] at ends
  cases ends

theorem take_of_not_startsOperand {t : PlacedToken} (h : t.token.startsOperand = false) :
    y.take t = y.shift t := by
  apply take_of_not_juxtaposed
  intro s _ joined
  have starts := joined.2
  rw [h] at starts
  cases starts

/-- Directly after an operand, another one is read after a concatenation. -/
theorem read_after_operand (ends : ∃ t, y.previous = some t ∧ t.endsOperand = true)
    (hc : (Token.ofSymbol c).startsOperand = true)
    (shifted : y.shift ⟨n, .operator .concatenation⟩ = .ok z) :
    y.read (tokenizeFrom n (c :: q)) = z.read (tokenizeFrom n (c :: q)) := by
  obtain ⟨t, previous, ends⟩ := ends
  have after : ∀ s ∈ z.previous, s.endsOperand = false := by
    rw [previous_of_shift shifted]
    intro s hs
    cases hs
    rfl
  rw [tokenizeFrom, read_cons, read_cons, take_of_juxtaposed previous ⟨ends, hc⟩, shifted,
    take_of_not_endsOperand after]
  rfl

theorem read_snoc (y : Yard) (n : Int) (p : Text) (c : Symbol) :
    y.read (tokenizeFrom n (p ++ [c])) =
      (y.read (tokenizeFrom n p)).bind fun z => z.take ⟨n + p.length, Token.ofSymbol c⟩ := by
  rw [tokenizeFrom_append, read_append]
  congr 1
  funext z
  exact read_singleton z _

/-! ### Reading an expression -/

theorem Reads.of_waiting (output : z.output = y.output ++ tokens)
    (waiting : z.waiting = y.waiting) (ends : ∃ t, z.previous = some t ∧ t.endsOperand = true) :
    Reads l tokens y z := by
  refine ⟨⟨tokens, [], output, waiting, ?_, List.append_nil tokens⟩, ends⟩
  intro w hw
  exact absurd hw List.not_mem_nil

/-- Reading the right operand of an operator that waits completes the operation. -/
theorem Reads.of_right {left right : List Token} (ho : l.tightness ≤ o.precedence)
    (hlm : l.tightness ≤ m.tightness) (output : x.output = y.output ++ left)
    (waiting : x.waiting = (n, o) :: y.waiting) (h : Reads m right x z) :
    Reads l (left ++ right ++ [.operator o]) y z := by
  obtain ⟨written, ops, output', waiting', tight, all⟩ := h.exists_parts
  refine ⟨⟨left ++ written, ops ++ [(n, o)], ?_, ?_, ?_, ?_⟩, h.endsOperand⟩
  · rw [output', output, List.append_assoc]
  · rw [waiting', waiting, List.append_assoc]
    rfl
  · intro w hw
    rcases List.mem_append.1 hw with hw | hw
    · exact Nat.le_trans hlm (tight w hw)
    · rw [List.mem_singleton.1 hw]
      exact ho
  · rw [← all, asTokens_append]
    simp [asTokens]

/-- **Reading an expression.**  Reading a way to write an expression writes its postfix tokens, but
for operators that go on waiting. -/
theorem exists_read_spells (h : Spells l r p) (ready : y.Awaits l) (n : Int) :
    ∃ z, y.read (tokenizeFrom n p) = .ok z ∧ Reads l r.postorder y z := by
  induction h generalizing y n with
  | @literal c hc =>
    refine ⟨⟨y.output ++ [.literal c], y.waiting, some (.literal c)⟩, ?_, ?_⟩
    · rw [tokenizeFrom, tokenizeFrom, read_singleton, take_of_not_endsOperand ready.previous,
        ofSymbol_of_isLiteral hc]
      rfl
    · exact Reads.of_waiting rfl rfl ⟨_, rfl, rfl⟩
  | @group r p _ ih =>
    have opened : y.take ⟨n, Token.ofSymbol '('⟩ =
        .ok ⟨y.output, (n, .leftParen) :: y.waiting, some (.operator .leftParen)⟩ :=
      take_of_not_endsOperand ready.previous
    obtain ⟨z, run, reads⟩ := ih
      (awaits_after_operator (o := .leftParen) (by decide) rfl y.output y.waiting n) (n + 1)
    refine ⟨⟨y.output ++ r.postorder, y.waiting, some (.operator .rightParen)⟩, ?_, ?_⟩
    · rw [List.cons_append, tokenizeFrom, read_cons, opened]
      show Yard.read _ (tokenizeFrom (n + 1) (p ++ [')'])) = _
      rw [read_snoc, run]
      show z.take _ = _
      rw [take_of_not_startsOperand rfl]
      exact reads.shift_rightParen rfl
    · exact Reads.of_waiting rfl rfl ⟨_, rfl, rfl⟩
  | ofAtom _ ih =>
    obtain ⟨z, run, reads⟩ := ih (ready.mono (by decide)) n
    exact ⟨z, run, reads.mono (by decide)⟩
  | @star r p _ ih =>
    obtain ⟨z, run, reads⟩ := ih ready n
    refine ⟨⟨y.output ++ r.postorder, (n + p.length, .star) :: y.waiting, some (.operator .star)⟩,
      ?_, ?_⟩
    · rw [read_snoc, run]
      show z.take _ = _
      rw [take_of_not_startsOperand rfl]
      exact reads.shift_operator _ (by decide) ready.waiting (by decide) (by decide)
    · refine ⟨⟨r.postorder, [(n + p.length, .star)], rfl, rfl, ?_, rfl⟩, ⟨_, rfl, rfl⟩⟩
      intro w hw
      rw [List.mem_singleton.1 hw]
      exact Nat.le_refl 3
  | ofFactor _ ih =>
    obtain ⟨z, run, reads⟩ := ih (ready.mono (by decide)) n
    exact ⟨z, run, reads.mono (by decide)⟩
  | @concat r s p q _ hq ihp ihq =>
    obtain ⟨x, run, reads⟩ := ihp ready n
    obtain ⟨c, q', rfl, hc⟩ := hq.exists_cons
    have joined := reads.shift_operator (o := .concatenation) (n + p.length) (by decide)
      ready.waiting (by decide) (by decide)
    obtain ⟨z, run', reads'⟩ := ihq
      (awaits_after_operator (o := .concatenation) (by decide) rfl (y.output ++ r.postorder)
        y.waiting (n + p.length)) (n + p.length)
    refine ⟨z, ?_, ?_⟩
    · rw [tokenizeFrom_append, read_append, run]
      show x.read _ = _
      rw [read_after_operand reads.endsOperand hc joined, run']
    · exact Reads.of_right (o := .concatenation) (m := .factor) (by decide) (by decide) rfl rfl
        reads'
  | ofTerm _ ih =>
    obtain ⟨z, run, reads⟩ := ih (ready.mono (by decide)) n
    exact ⟨z, run, reads.mono (by decide)⟩
  | @union r s p q _ _ ihp ihq =>
    obtain ⟨x, run, reads⟩ := ihp ready n
    have joined := reads.shift_operator (o := .union) (n + p.length) (by decide)
      ready.waiting (by decide) (by decide)
    obtain ⟨z, run', reads'⟩ := ihq
      (awaits_after_operator (o := .union) (by decide) rfl (y.output ++ r.postorder) y.waiting
        (n + p.length)) (n + p.length + 1)
    refine ⟨z, ?_, ?_⟩
    · rw [tokenizeFrom_append, read_append, run, tokenizeFrom]
      show x.read (_ :: _) = _
      rw [read_cons, take_of_not_startsOperand rfl]
      show (x.shift ⟨_, .operator .union⟩).bind _ = _
      rw [joined]
      exact run'
    · exact Reads.of_right (o := .union) (m := .term) (by decide) (by decide) rfl rfl reads'

/-- Operators that are no open groups are all written in the end. -/
theorem flush_eq {ops : List (Int × Operator)} (h : ∀ w ∈ ops, w.2 ≠ .leftParen) :
    flush ops = .ok (asTokens ops) := by
  induction ops with
  | nil => rfl
  | cons w ops ih =>
    obtain ⟨ho, rest⟩ := List.forall_mem_cons.1 h
    rw [flush_cons ho, ih rest]
    rfl

end Yard

/-- **Postfix form.**  Every way to write an expression is rearranged into the postfix tokens of
the expression. -/
theorem Postfix.ofText_eq_of_spells {r : Regex} {p : Text} (h : Spells .expression r p) :
    ofText p = .ok r.postorder := by
  have ready : Yard.Awaits .expression Yard.empty := by
    constructor
    · intro t ht
      cases ht
    · intro w hw
      cases hw
  obtain ⟨z, run, reads⟩ := Yard.exists_read_spells h ready 0
  obtain ⟨written, ops, output, waiting, tight, all⟩ := reads.exists_parts
  have flushed : Yard.flush z.waiting = .ok (Yard.asTokens ops) := by
    rw [waiting]
    show Yard.flush (ops ++ []) = _
    rw [List.append_nil]
    exact Yard.flush_eq fun w hw => Operator.ne_leftParen_of_lt (tight w hw)
  rw [ofText_eq, PlacedToken.tokenize, run]
  show z.finish = _
  rw [Yard.finish_eq, flushed, output, ← all]
  rfl

end PatternAutomata
