import PatternAutomata.Proofs.Pattern.Parentheses
import PatternAutomata.Proofs.Pattern.Precedence
import PatternAutomata.Proofs.Pattern.Rearrangement

/-!
# Parentheses that the rearrangement reports

Reading a pattern stops at the first `)` that closes an empty group or none, and the groups that are
still open when all of it has been read are those that are never closed.

* `Yard.groupStarts` — where the open groups among waiting operators start;
* `Yard.exists_take`, `Yard.take_closing_empty`, `Yard.take_closing_nothing`,
  `Yard.exists_take_closing` — how a character changes them, and when it is reported;
* `Yard.HasRead` — what holds when a text has been read, and `Yard.HasRead.take`,
  `Yard.HasRead.read` — that reading keeps it until a `)` is reported;
* `Postfix.ofText_cases` — the report for a whole pattern, or its postfix tokens.
-/

namespace PatternAutomata

variable {u v : Text} {c : Symbol} {n : Nat}

/-! ### Characters that are parentheses -/

theorem Token.ofSymbol_eq_leftParen_iff : Token.ofSymbol c = .operator .leftParen ↔ c = '(' := by
  constructor
  · intro h
    rw [← PlacedToken.sign_ofSymbol c, h]
    rfl
  · intro h
    rw [h]
    rfl

theorem Token.ofSymbol_eq_rightParen_iff : Token.ofSymbol c = .operator .rightParen ↔ c = ')' := by
  constructor
  · intro h
    rw [← PlacedToken.sign_ofSymbol c, h]
    rfl
  · intro h
    rw [h]
    rfl

namespace Yard

open PlacedToken

variable {y z : Yard} {t : PlacedToken} {k start : Int} {rest : List Int}
  {waiting inner outer : List (Int × Operator)}

/-! ### Open groups -/

/-- The positions of the open groups among waiting operators, the latest first. -/
def groupStarts (waiting : List (Int × Operator)) : List Int :=
  (waiting.filter fun w => decide (w.2 = .leftParen)).map Prod.fst

theorem groupStarts_cons_of_ne {w : Int × Operator} (h : w.2 ≠ .leftParen) :
    groupStarts (w :: waiting) = groupStarts waiting := by
  unfold groupStarts
  rw [List.filter_cons_of_neg]
  simpa using h

/-- Operators that are no open groups can be left out. -/
theorem groupStarts_append (h : ∀ w ∈ inner, w.2 ≠ .leftParen) :
    groupStarts (inner ++ outer) = groupStarts outer := by
  have none : inner.filter (fun w => decide (w.2 = .leftParen)) = [] := by
    rw [List.filter_eq_nil_iff]
    intro w hw
    simpa using h w hw
  unfold groupStarts
  rw [List.filter_append, none, List.nil_append]

theorem groupStarts_eq_nil_iff : groupStarts waiting = [] ↔ ∀ w ∈ waiting, w.2 ≠ .leftParen := by
  unfold groupStarts
  rw [List.map_eq_nil_iff, List.filter_eq_nil_iff]
  simp only [decide_eq_true_eq, ne_eq]

/-- An opening parenthesis opens a group, and no other token but `)` changes the open groups. -/
theorem Shifted.groupStarts_eq (h : Shifted y t z) (right : t.token ≠ .operator .rightParen) :
    groupStarts z.waiting =
      if t.token = .operator .leftParen then t.position :: groupStarts y.waiting
      else groupStarts y.waiting := by
  cases h with
  | literal n c => rfl
  | opening n => rfl
  | closing n _ _ _ => exact absurd rfl right
  | operating n left _ split inner =>
    rw [if_neg fun same => left (Token.operator.inj same), split, groupStarts_append inner]
    exact groupStarts_cons_of_ne left

/-- A closing parenthesis closes the latest open group. -/
theorem Shifted.exists_groupStarts (h : Shifted y ⟨k, .operator .rightParen⟩ z) :
    ∃ start, groupStarts y.waiting = start :: groupStarts z.waiting := by
  cases h with
  | @closing _ start _ _ _ split none =>
    refine ⟨start, ?_⟩
    rw [split, groupStarts_append none]
    rfl
  | operating n _ right _ _ => exact absurd rfl right

/-! ### One character -/

theorem exists_shift (y : Yard) (t : PlacedToken) (right : t.token ≠ .operator .rightParen) :
    ∃ z, y.shift t = .ok z := by
  obtain ⟨n, token⟩ := t
  cases token with
  | literal c => exact ⟨_, rfl⟩
  | operator o =>
    cases o with
    | rightParen => exact absurd rfl right
    | union => exact ⟨_, rfl⟩
    | concatenation => exact ⟨_, rfl⟩
    | star => exact ⟨_, rfl⟩
    | leftParen => exact ⟨_, rfl⟩

/-- A character other than `)` is never reported. -/
theorem exists_take (y : Yard) (k : Int) (h : c ≠ ')') :
    ∃ z, y.take ⟨k, Token.ofSymbol c⟩ = .ok z ∧
      groupStarts z.waiting =
        if c = '(' then k :: groupStarts y.waiting else groupStarts y.waiting := by
  have right : Token.ofSymbol c ≠ .operator .rightParen :=
    fun same => h (Token.ofSymbol_eq_rightParen_iff.1 same)
  have shifted : ∀ x : Yard, ∃ z, x.shift ⟨k, Token.ofSymbol c⟩ = .ok z ∧
      groupStarts z.waiting =
        if c = '(' then k :: groupStarts x.waiting else groupStarts x.waiting := by
    intro x
    obtain ⟨z, step⟩ := x.exists_shift ⟨k, Token.ofSymbol c⟩ right
    refine ⟨z, step, ?_⟩
    rw [(shifted_of_shift step).groupStarts_eq right]
    simp only [Token.ofSymbol_eq_leftParen_iff]
  by_cases joined : ∃ s, y.previous = some s ∧ s.Juxtaposed (Token.ofSymbol c)
  · obtain ⟨s, previous, joined⟩ := joined
    -- the concatenation in front leaves the open groups as they are
    obtain ⟨x, front⟩ := y.exists_shift ⟨k, .operator .concatenation⟩ nofun
    obtain ⟨z, step, starts⟩ := shifted x
    rw [take_of_juxtaposed previous joined, front]
    refine ⟨z, step, starts.trans ?_⟩
    rw [(shifted_of_shift front).groupStarts_eq nofun]
    rfl
  · rw [take_of_not_juxtaposed fun s hs together => joined ⟨s, hs, together⟩]
    exact shifted y

theorem take_closing (y : Yard) (k : Int) :
    y.take ⟨k, .operator .rightParen⟩ = y.shift ⟨k, .operator .rightParen⟩ :=
  take_of_not_juxtaposed fun _ _ together => nomatch together.2

theorem take_closing_empty (h : y.previous = some (.operator .leftParen)) :
    y.take ⟨k, .operator .rightParen⟩ = .error (.emptyGroup k) := by
  rw [take_closing]
  exact if_pos h

theorem take_closing_nothing (h : y.previous ≠ some (.operator .leftParen))
    (none : groupStarts y.waiting = []) :
    y.take ⟨k, .operator .rightParen⟩ = .error (.unmatchedClose k) := by
  have released : retained (fun o => decide (o ≠ .leftParen)) y.waiting = [] := by
    unfold retained
    rw [List.dropWhile_eq_nil_iff]
    intro w hw
    simpa using groupStarts_eq_nil_iff.1 none w hw
  rw [take_closing]
  show (if y.previous = some (.operator .leftParen) then _ else _) = _
  rw [if_neg h]
  simp only [released]

theorem exists_take_closing (h : y.previous ≠ some (.operator .leftParen))
    (some : groupStarts y.waiting = start :: rest) :
    ∃ z, y.take ⟨k, .operator .rightParen⟩ = .ok z ∧ groupStarts z.waiting = rest := by
  rw [take_closing]
  cases waiting : retained (fun o => decide (o ≠ .leftParen)) y.waiting with
  | nil =>
    unfold retained at waiting
    rw [List.dropWhile_eq_nil_iff] at waiting
    have none : groupStarts y.waiting = [] := by
      rw [groupStarts_eq_nil_iff]
      intro w hw
      simpa using waiting w hw
    rw [none] at some
    cases some
  | cons w outer =>
    have step := shift_rightParen (n := k) h waiting
    obtain ⟨first, starts⟩ := (shifted_of_shift step).exists_groupStarts
    rw [some] at starts
    exact ⟨_, step, (List.cons.inj starts).2.symm⟩

/-! ### Reading a text -/

/-- What holds when the text `u` has been read and nothing has been reported. -/
structure HasRead (u : Text) (y : Yard) : Prop where
  previous : y.previous = u.getLast?.map Token.ofSymbol
  nested : Nested (groupStarts y.waiting) u
  closed : ∀ n < u.length, ¬ Misclosed u n

/-- The report of a `)` that cannot stand where it stands. -/
def closeError (p : Text) (n : Nat) : ParseError :=
  if FollowsOpening p n then .emptyGroup n else .unmatchedClose n

theorem hasRead_empty : HasRead [] empty where
  previous := rfl
  nested := .base balanced_nil
  closed := fun n within => absurd within (Nat.not_lt_zero n)

theorem HasRead.previous_eq_iff (h : HasRead u y) :
    y.previous = some (.operator .leftParen) ↔ u.getLast? = some '(' := by
  rw [h.previous, Option.map_eq_some_iff]
  simp only [Token.ofSymbol_eq_leftParen_iff, exists_eq_right]

/-- One character more has been read. -/
theorem HasRead.snoc (h : HasRead u y) (taken : y.take ⟨k, Token.ofSymbol c⟩ = .ok z)
    (nested : Nested (groupStarts z.waiting) (u ++ [c]))
    (closed : ¬ Misclosed (u ++ [c]) u.length) : HasRead (u ++ [c]) z where
  previous := by rw [previous_of_take taken, List.getLast?_concat, Option.map_some]
  nested := nested
  closed := by
    intro n within
    rw [List.length_append, List.length_singleton] at within
    rcases Nat.lt_succ_iff_lt_or_eq.1 within with earlier | rfl
    · rw [misclosed_append_iff earlier]
      exact h.closed n earlier
    · exact closed

/-- Taking a character keeps what holds, or reports a `)` that cannot stand there. -/
theorem HasRead.take (h : HasRead u y) (c : Symbol) :
    (Misclosed (u ++ [c]) u.length ∧
      y.take ⟨u.length, Token.ofSymbol c⟩ = .error (closeError (u ++ [c]) u.length)) ∨
    ∃ z, y.take ⟨u.length, Token.ofSymbol c⟩ = .ok z ∧ HasRead (u ++ [c]) z := by
  by_cases closing : c = ')'
  · subst closing
    have token : Token.ofSymbol ')' = .operator .rightParen := rfl
    rw [token]
    by_cases follows : u.getLast? = some '('
    · left
      refine ⟨misclosed_length_iff.2 (Or.inl follows), ?_⟩
      rw [take_closing_empty (h.previous_eq_iff.2 follows), closeError,
        if_pos (followsOpening_length_iff.2 follows)]
    · have previous := mt h.previous_eq_iff.1 follows
      have nested := h.nested
      have total := nested.count_eq
      cases starts : groupStarts y.waiting with
      | nil =>
        left
        rw [starts] at total
        refine ⟨misclosed_length_iff.2 (Or.inr total), ?_⟩
        rw [take_closing_nothing previous starts, closeError,
          if_neg (mt followsOpening_length_iff.1 follows)]
      | cons start rest =>
        right
        rw [starts] at nested total
        obtain ⟨z, taken, closed⟩ := exists_take_closing (k := u.length) previous starts
        refine ⟨z, taken, h.snoc taken ?_ ?_⟩
        · rw [closed]
          exact nested.closing
        · intro misclosed
          rcases misclosed_length_iff.1 misclosed with empty | same
          · exact follows empty
          · rw [List.length_cons] at total
            omega
  · right
    obtain ⟨z, taken, starts⟩ := y.exists_take u.length closing
    refine ⟨z, taken, h.snoc taken ?_ (not_misclosed_length closing)⟩
    rw [starts]
    by_cases opening : c = '('
    · rw [if_pos opening, opening]
      exact h.nested.opening
    · rw [if_neg opening]
      exact h.nested.append (balanced_singleton opening closing)

theorem closeError_append (h : n < u.length) : closeError (u ++ v) n = closeError u n := by
  have same : FollowsOpening (u ++ v) n ↔ FollowsOpening u n := followsOpening_append_iff h
  unfold closeError
  simp only [same]

/-- Reading stops at the first `)` that cannot stand where it stands. -/
theorem HasRead.read (h : HasRead u y) (p : Text) :
    (∃ n, Misclosed (u ++ p) n ∧ (∀ m < n, ¬ Misclosed (u ++ p) m) ∧
      y.read (tokenizeFrom u.length p) = .error (closeError (u ++ p) n)) ∨
    ∃ z, y.read (tokenizeFrom u.length p) = .ok z ∧ HasRead (u ++ p) z := by
  induction p generalizing u y with
  | nil =>
    rw [List.append_nil]
    exact Or.inr ⟨y, rfl, h⟩
  | cons c p ih =>
    have here : u.length < (u ++ [c]).length := by simp
    have position : (u.length : Int) + 1 = ((u ++ [c]).length : Nat) := by simp
    rw [tokenizeFrom, read_cons, List.append_cons]
    rcases h.take c with ⟨misclosed, failed⟩ | ⟨z, taken, next⟩
    · left
      refine ⟨u.length, (misclosed_append_iff here).2 misclosed, ?_, ?_⟩
      · intro m earlier
        rw [List.append_assoc, misclosed_append_iff earlier]
        exact h.closed m earlier
      · rw [failed, closeError_append here]
        rfl
    · rw [taken, position]
      exact ih next

/-! ### The end of a pattern -/

/-- The latest group that is open in the end is reported. -/
theorem flush_eq_error (h : groupStarts waiting = start :: rest) :
    flush waiting = .error (.unmatchedOpen start) := by
  induction waiting with
  | nil => cases h
  | cons w waiting ih =>
    obtain ⟨n, o⟩ := w
    by_cases group : o = .leftParen
    · subst group
      cases h
      rfl
    · rw [groupStarts_cons_of_ne group] at h
      rw [flush_cons group, ih h]
      rfl

end Yard

namespace Postfix

/-- What is reported for a pattern is the first `)` that cannot stand where it stands, or else the
last `(` that is never closed; a pattern without either has postfix tokens. -/
theorem ofText_cases (p : Text) :
    (∃ n, Misclosed p n ∧ (∀ m < n, ¬ Misclosed p m) ∧
      ofText p = .error (Yard.closeError p n)) ∨
    ((∀ n, ¬ Misclosed p n) ∧ ∃ n, Unclosed p n ∧ (∀ m, n < m → ¬ Unclosed p m) ∧
      ofText p = .error (.unmatchedOpen n)) ∨
    ((∀ n, ¬ Misclosed p n) ∧ (∀ n, ¬ Unclosed p n) ∧ ∃ tokens, ofText p = .ok tokens) := by
  rw [ofText_eq]
  rcases Yard.hasRead_empty.read p with ⟨n, misclosed, first, failed⟩ | ⟨y, run, hasRead⟩
  · left
    have failed : Yard.empty.read (PlacedToken.tokenize p) = .error (Yard.closeError p n) := failed
    rw [failed]
    exact ⟨n, misclosed, first, rfl⟩
  · right
    have run : Yard.empty.read (PlacedToken.tokenize p) = .ok y := run
    have nested : Nested (Yard.groupStarts y.waiting) p := hasRead.nested
    have closed : ∀ n, ¬ Misclosed p n := fun n h => hasRead.closed n h.lt_length h
    have finished : (Yard.empty.read (PlacedToken.tokenize p)).bind Yard.finish =
        (Yard.flush y.waiting).bind fun t => .ok (y.output ++ t) := by
      rw [run]
      rfl
    rw [finished]
    cases starts : Yard.groupStarts y.waiting with
    | cons start rest =>
      left
      rw [starts] at nested
      obtain ⟨n, position, unclosed, last⟩ := nested.unclosed
      refine ⟨closed, n, unclosed, last, ?_⟩
      rw [Yard.flush_eq_error starts, position]
      rfl
    | nil =>
      right
      rw [starts] at nested
      cases nested with
      | base balanced =>
        refine ⟨closed, fun n => balanced.not_unclosed, ?_⟩
        rw [Yard.flush_eq (Yard.groupStarts_eq_nil_iff.1 starts)]
        exact ⟨_, rfl⟩

end Postfix

end PatternAutomata
