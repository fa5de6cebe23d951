import Mathlib.Data.List.TakeWhile
import PatternAutomata.Proofs.Pattern.Reading

/-!
# What the rearrangement holds

The tokens that have been written and the operators that wait are together the tokens taken so far,
but for the parentheses.

* `Token.literals` — the symbols of the literals among some tokens;
* `Yard.held` — the tokens written and waiting; `Yard.depth` — the number of open groups;
* `Yard.Shifted` — all that taking one token can do, and `Yard.shifted_of_shift` — that it does;
* `Yard.of_run` — what taking one token keeps, taking several keeps;
* `Yard.Shifted.perm_held` — no token is lost, and none is made up;
* `Yard.eq_held_of_finish` — in the end everything held is written;
* `Postfix.isParen_eq_false_of_ofText` — but no parenthesis ever is.
-/

namespace PatternAutomata

namespace Token

/-- Whether a token is a parenthesis. -/
def isParen : Token → Bool
  | .operator .leftParen => true
  | .operator .rightParen => true
  | _ => false

/-- Whether a token is a literal. -/
def isLiteral : Token → Bool
  | .literal _ => true
  | .operator _ => false

/-- Whether a token is an operator with two operands. -/
def isBinary : Token → Bool
  | .operator .union => true
  | .operator .concatenation => true
  | _ => false

/-- The symbol of a literal. -/
def symbol? : Token → Option Symbol
  | .literal c => some c
  | .operator _ => none

/-- The symbols of the literals among some tokens, in their order. -/
def literals (ts : List Token) : List Symbol := ts.filterMap symbol?

theorem literals_append (ts us : List Token) : literals (ts ++ us) = literals ts ++ literals us :=
  List.filterMap_append

theorem length_literals (ts : List Token) : (literals ts).length = ts.countP isLiteral := by
  rw [literals, List.length_filterMap_eq_countP]
  refine List.countP_congr fun t _ => ?_
  cases t with
  | literal c => exact Iff.rfl
  | operator o => exact Iff.rfl

theorem mem_literals_iff {ts : List Token} {c : Symbol} : c ∈ literals ts ↔ .literal c ∈ ts := by
  rw [literals, List.mem_filterMap]
  constructor
  · rintro ⟨t, ht, symbol⟩
    cases t with
    | literal d =>
      cases symbol
      exact ht
    | operator o => cases symbol
  · intro mem
    exact ⟨_, mem, rfl⟩

theorem isLiteral_eq_false_of_isParen {t : Token} (h : t.isParen = true) : t.isLiteral = false := by
  cases t with
  | literal c => cases h
  | operator o => rfl

theorem isParen_eq_false {o : Operator} (left : o ≠ .leftParen) (right : o ≠ .rightParen) :
    (Token.operator o).isParen = false := by
  cases o with
  | union => rfl
  | concatenation => rfl
  | star => rfl
  | leftParen => exact absurd rfl left
  | rightParen => exact absurd rfl right

theorem isBinary_eq_false_of_isParen {t : Token} (h : t.isParen = true) : t.isBinary = false := by
  cases t with
  | literal c => rfl
  | operator o =>
    cases o with
    | union => cases h
    | concatenation => cases h
    | star => rfl
    | leftParen => rfl
    | rightParen => rfl

end Token

namespace Yard

variable {y z : Yard} {t : PlacedToken} {tokens : List Token} {o : Operator} {n : Int}

/-- The tokens that have been written, and those that wait. -/
def held (y : Yard) : List Token := y.output ++ asTokens y.waiting

/-- The number of open groups. -/
def depth (y : Yard) : Nat := y.waiting.countP fun w => decide (w.2 = .leftParen)

/-! ### What taking one token can do -/

/-- The yard `z` comes from `y` by taking `t`.  The operators in `inner`, none of them an open
group, are written. -/
inductive Shifted : Yard → PlacedToken → Yard → Prop where
  | literal (y : Yard) (n : Int) (c : Symbol) :
      Shifted y ⟨n, .literal c⟩ ⟨y.output ++ [.literal c], y.waiting, some (.literal c)⟩
  | opening (y : Yard) (n : Int) :
      Shifted y ⟨n, .operator .leftParen⟩
        ⟨y.output, (n, .leftParen) :: y.waiting, some (.operator .leftParen)⟩
  | closing {y : Yard} (n : Int) {k : Int} {inner outer : List (Int × Operator)} :
      y.previous ≠ some (.operator .leftParen) → y.waiting = inner ++ (k, .leftParen) :: outer →
      (∀ w ∈ inner, w.2 ≠ .leftParen) →
      Shifted y ⟨n, .operator .rightParen⟩
        ⟨y.output ++ asTokens inner, outer, some (.operator .rightParen)⟩
  | operating {y : Yard} (n : Int) {o : Operator} {inner outer : List (Int × Operator)} :
      o ≠ .leftParen → o ≠ .rightParen → y.waiting = inner ++ outer →
      (∀ w ∈ inner, w.2 ≠ .leftParen) →
      Shifted y ⟨n, .operator o⟩
        ⟨y.output ++ asTokens inner, (n, o) :: outer, some (.operator o)⟩

theorem takeWhile_append_retained (p : Operator → Bool) (waiting : List (Int × Operator)) :
    waiting = waiting.takeWhile (fun w => p w.2) ++ retained p waiting :=
  List.takeWhile_append_dropWhile.symm

theorem shifted_of_shift_operator (left : o ≠ .leftParen) (right : o ≠ .rightParen)
    (h : y.shift ⟨n, .operator o⟩ = .ok z) : Shifted y ⟨n, .operator o⟩ z := by
  rw [shift_operator y n left right] at h
  cases h
  refine .operating n left right (takeWhile_append_retained (yieldsTo o) y.waiting) ?_
  intro w hw same
  have yields := List.mem_takeWhile_imp hw
  rw [yieldsTo, Bool.and_eq_true] at yields
  exact of_decide_eq_true yields.1 same

theorem shifted_of_shift_rightParen (h : y.shift ⟨n, .operator .rightParen⟩ = .ok z) :
    Shifted y ⟨n, .operator .rightParen⟩ z := by
  by_cases previous : y.previous = some (.operator .leftParen)
  · unfold shift at h
    simp only [if_pos previous] at h
    cases h
  · cases waiting : retained (fun o => decide (o ≠ .leftParen)) y.waiting with
    | nil =>
      unfold shift at h
      simp only [if_neg previous, waiting] at h
      cases h
    | cons w outer =>
      rw [shift_rightParen previous waiting] at h
      cases h
      -- what stops the release is an open group
      have opened : w.2 = .leftParen := by
        have stops := List.head?_dropWhile_not (fun w : Int × Operator => decide (w.2 ≠ .leftParen))
          y.waiting
        unfold retained at waiting
        rw [waiting] at stops
        simpa using stops
      obtain ⟨k, o⟩ := w
      subst opened
      refine .closing n previous ?_ ?_ (k := k)
      · rw [← waiting]
        exact takeWhile_append_retained (fun o => decide (o ≠ .leftParen)) y.waiting
      · intro w hw
        have inside := List.mem_takeWhile_imp hw
        exact of_decide_eq_true inside

theorem shifted_of_shift (h : y.shift t = .ok z) : Shifted y t z := by
  obtain ⟨n, token⟩ := t
  cases token with
  | literal c =>
    cases h
    exact .literal y n c
  | operator o =>
    cases o with
    | leftParen =>
      cases h
      exact .opening y n
    | rightParen => exact shifted_of_shift_rightParen h
    | union => exact shifted_of_shift_operator (by decide) (by decide) h
    | concatenation => exact shifted_of_shift_operator (by decide) (by decide) h
    | star => exact shifted_of_shift_operator (by decide) (by decide) h

/-- What taking one token keeps, taking several keeps. -/
theorem of_run {P : Yard → Prop}
    (step : ∀ {y z : Yard} {t : PlacedToken}, Shifted y t z → P y → P z)
    (ts : List PlacedToken) (hy : P y) (run : y.run ts = .ok z) : P z := by
  induction ts generalizing y with
  | nil =>
    cases run
    exact hy
  | cons t ts ih =>
    obtain ⟨x, taken, rest⟩ := exists_of_bind_eq_ok run
    exact ih (step (shifted_of_shift taken) hy) rest

/-! ### No parenthesis is written -/

/-- No parenthesis has been written, and no closing one waits. -/
structure Stripped (y : Yard) : Prop where
  output : ∀ t ∈ y.output, t.isParen = false
  waiting : ∀ w ∈ y.waiting, w.2 ≠ .rightParen

theorem isParen_eq_false_of_mem_asTokens {waiting : List (Int × Operator)} {t : Token}
    (left : ∀ w ∈ waiting, w.2 ≠ .leftParen) (right : ∀ w ∈ waiting, w.2 ≠ .rightParen)
    (h : t ∈ asTokens waiting) : t.isParen = false := by
  obtain ⟨w, hw, rfl⟩ := List.mem_map.1 h
  exact Token.isParen_eq_false (left w hw) (right w hw)

/-- Taking a token writes no parenthesis. -/
theorem Shifted.stripped (h : Shifted y t z) (before : y.Stripped) : z.Stripped := by
  obtain ⟨written, waits⟩ := before
  cases h with
  | literal n c =>
    refine ⟨?_, waits⟩
    rw [List.forall_mem_append, List.forall_mem_singleton]
    exact ⟨written, rfl⟩
  | opening n => exact ⟨written, List.forall_mem_cons.2 ⟨nofun, waits⟩⟩
  | closing n _ split none =>
    rw [split, List.forall_mem_append, List.forall_mem_cons] at waits
    refine ⟨?_, waits.2.2⟩
    rw [List.forall_mem_append]
    exact ⟨written, fun t => isParen_eq_false_of_mem_asTokens none waits.1⟩
  | operating n _ right split none =>
    rw [split, List.forall_mem_append] at waits
    refine ⟨?_, List.forall_mem_cons.2 ⟨right, waits.2⟩⟩
    rw [List.forall_mem_append]
    exact ⟨written, fun t => isParen_eq_false_of_mem_asTokens none waits.1⟩

/-! ### No token is lost -/

/-- Taking a token holds it, unless it is a parenthesis. -/
theorem Shifted.perm_held (h : Shifted y t z) :
    (z.held.filter fun t => !t.isParen).Perm
      ((y.held ++ [t.token]).filter fun t => !t.isParen) := by
  cases h with
  | literal n c =>
    apply List.Perm.filter
    show (y.output ++ [Token.literal c] ++ asTokens y.waiting).Perm
      (y.output ++ asTokens y.waiting ++ [Token.literal c])
    rw [List.append_assoc, List.append_assoc]
    exact List.Perm.append_left _ (List.perm_append_comm)
  | opening n =>
    unfold held asTokens
    simp [Token.isParen]
  | closing n _ waiting _ =>
    unfold held
    rw [waiting, asTokens_append]
    simp [asTokens, Token.isParen]
  | @operating n o inner outer _ _ waiting _ =>
    apply List.Perm.filter
    unfold held
    rw [waiting, asTokens_append, List.append_assoc, List.append_assoc, List.append_assoc]
    apply List.Perm.append_left
    apply List.Perm.append_left
    show ([Token.operator o] ++ asTokens outer).Perm (asTokens outer ++ [Token.operator o])
    exact List.perm_append_comm

/-- The tokens of a kind that is no parenthesis are counted as they are taken. -/
theorem Shifted.countP_held {p : Token → Bool} (hp : ∀ t, t.isParen = true → p t = false)
    (h : Shifted y t z) :
    z.held.countP p = y.held.countP p + if p t.token then 1 else 0 := by
  have all : ∀ l : List Token, (l.filter fun t => !t.isParen).countP p = l.countP p := by
    intro l
    rw [List.countP_filter]
    apply List.countP_congr
    intro t _
    cases paren : t.isParen with
    | false => simp
    | true => simp [hp t paren]
  have same := h.perm_held.countP_eq p
  rw [all, all, List.countP_append, List.countP_singleton] at same
  exact same

/-- Releasing operators that are no open groups leaves all groups open. -/
theorem depth_eq_of_append {inner outer : List (Int × Operator)}
    (waiting : y.waiting = inner ++ outer) (h : ∀ w ∈ inner, w.2 ≠ .leftParen) :
    y.depth = outer.countP fun w => decide (w.2 = .leftParen) := by
  have none : inner.countP (fun w => decide (w.2 = .leftParen)) = 0 := by
    rw [List.countP_eq_zero]
    intro w hw
    simpa using h w hw
  rw [depth, waiting, List.countP_append, none, Nat.zero_add]

/-! ### The end -/

theorem eq_of_flush {ops : List (Int × Operator)} (h : flush ops = .ok tokens) :
    tokens = asTokens ops ∧ ∀ w ∈ ops, w.2 ≠ .leftParen := by
  induction ops generalizing tokens with
  | nil =>
    cases h
    exact ⟨rfl, fun w hw => absurd hw List.not_mem_nil⟩
  | cons w ops ih =>
    obtain ⟨k, o⟩ := w
    by_cases group : o = .leftParen
    · subst group
      cases h
    · rw [flush_cons group] at h
      obtain ⟨written, rest, last⟩ := exists_of_bind_eq_ok h
      cases last
      obtain ⟨rfl, none⟩ := ih rest
      exact ⟨rfl, List.forall_mem_cons.2 ⟨group, none⟩⟩

/-- In the end everything held is written, and no group is open. -/
theorem eq_held_of_finish (h : y.finish = .ok tokens) :
    tokens = y.held ∧ ∀ w ∈ y.waiting, w.2 ≠ .leftParen := by
  rw [finish_eq] at h
  obtain ⟨written, rest, last⟩ := exists_of_bind_eq_ok h
  cases last
  obtain ⟨rfl, none⟩ := eq_of_flush rest
  exact ⟨rfl, none⟩

end Yard

namespace Postfix

/-- There are no parentheses among the postfix tokens of a pattern. -/
theorem isParen_eq_false_of_ofText {p : Text} {tokens : List Token} (h : ofText p = .ok tokens) :
    ∀ t ∈ tokens, t.isParen = false := by
  obtain ⟨y, run, finished⟩ := exists_of_bind_eq_ok h
  have empty : Yard.empty.Stripped :=
    ⟨fun t ht => absurd ht List.not_mem_nil, fun w hw => absurd hw List.not_mem_nil⟩
  have stripped : y.Stripped := Yard.of_run (fun step => step.stripped) _ empty run
  obtain ⟨rfl, none⟩ := Yard.eq_held_of_finish finished
  unfold Yard.held
  rw [List.forall_mem_append]
  exact ⟨stripped.output, fun t => Yard.isParen_eq_false_of_mem_asTokens none stripped.waiting⟩

end Postfix

end PatternAutomata
