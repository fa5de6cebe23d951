import PatternAutomata.Proofs.Pattern.Juxtaposition

/-!
# What the postfix tokens of a text hold

The rearrangement loses no token but the parentheses, and none is made up but the concatenations
that are put in.  This holds of every text that has postfix tokens, also if its operators lack
operands.

* `Token.operator?` — the operator that a token is;
* `PlacedToken.Interspersed.literals_eq`, `PlacedToken.Interspersed.exists_perm` — what tokens with
  concatenations put in hold;
* `Yard.literals_of_run`, `Yard.perm_held_of_run` — what a run writes and holds;
* `postfix_conserves_tokens` — the postfix tokens of a text.
-/

namespace PatternAutomata

variable {p : Text} {tokens : List Token}

namespace Token

/-- The operator that a token is. -/
def operator? : Token → Option Operator
  | .literal _ => none
  | .operator o => some o

/-- The literals of a text are its characters that are no operators. -/
theorem literals_map_ofSymbol (p : Text) :
    literals (p.map ofSymbol) = p.filter fun c => decide (c ∉ "|*()".toList) := by
  have single : ∀ c : Symbol,
      symbol? (ofSymbol c) = Option.guard (fun c => decide (c ∉ "|*()".toList)) c := by
    intro c
    unfold ofSymbol Operator.ofSymbol? Option.guard
    by_cases union : c = '|'
    · subst union; rfl
    by_cases star : c = '*'
    · subst star; rfl
    by_cases left : c = '('
    · subst left; rfl
    by_cases right : c = ')'
    · subst right; rfl
    simp [union, star, left, right, symbol?]
  rw [literals, List.filterMap_map, ← List.filterMap_eq_filter]
  exact congrArg (List.filterMap · p) (funext single)

/-- The operators of a text are its `|` and `*`, and the parentheses. -/
theorem perm_operators_map_ofSymbol (p : Text) :
    (((p.map ofSymbol).filter fun t => !t.isParen).filterMap operator?).Perm
      (List.replicate (p.count '|') .union ++ List.replicate (p.count '*') .star) := by
  induction p with
  | nil => exact List.Perm.refl []
  | cons c p ih =>
    by_cases union : c = '|'
    · subst union
      rw [List.count_cons_self, List.count_cons_of_ne (by decide), List.replicate_succ]
      exact ih.cons _
    by_cases star : c = '*'
    · subst star
      rw [List.count_cons_self, List.count_cons_of_ne (by decide), List.replicate_succ]
      exact (ih.cons _).trans List.perm_middle.symm
    rw [List.count_cons_of_ne union, List.count_cons_of_ne star]
    by_cases left : c = '('
    · subst left
      exact ih
    by_cases right : c = ')'
    · subst right
      exact ih
    have literal : ofSymbol c = .literal c := by
      simp [ofSymbol, Operator.ofSymbol?, union, star, left, right]
    rw [List.map_cons, literal]
    exact ih

end Token

namespace PlacedToken

variable {ts us : List PlacedToken}

/-- Concatenations that are put in leave the literals in their order. -/
theorem Interspersed.literals_eq (h : Interspersed ts us) :
    Token.literals (us.map PlacedToken.token) = Token.literals (ts.map PlacedToken.token) := by
  unfold Token.literals
  induction h with
  | nil => rfl
  | given t _ ih => rw [List.map_cons, List.map_cons, List.filterMap_cons, List.filterMap_cons, ih]
  | added t _ ih => rw [List.map_cons, List.filterMap_cons_none rfl, ih]

/-- Tokens with concatenations put in are the given ones and as many concatenations as have been
added. -/
theorem Interspersed.exists_perm (h : Interspersed ts us) :
    ∃ added, us.length = ts.length + added ∧
      (us.map PlacedToken.token).Perm
        (ts.map PlacedToken.token ++ List.replicate added (.operator .concatenation)) := by
  induction h with
  | nil => exact ⟨0, rfl, List.Perm.refl []⟩
  | given t _ ih =>
    obtain ⟨added, length, perm⟩ := ih
    refine ⟨added, ?_, perm.cons _⟩
    rw [List.length_cons, List.length_cons, length]
    omega
  | added t _ ih =>
    obtain ⟨added, length, perm⟩ := ih
    refine ⟨added + 1, ?_, ?_⟩
    · rw [List.length_cons, length]
      omega
    · rw [List.replicate_succ]
      exact (perm.cons _).trans List.perm_middle.symm

end PlacedToken

namespace Yard

variable {y z : Yard} {t : PlacedToken} {ts : List PlacedToken}

/-! ### What a run writes and holds -/

theorem literals_asTokens (waiting : List (Int × Operator)) :
    Token.literals (asTokens waiting) = [] := by
  rw [Token.literals, List.filterMap_eq_nil_iff]
  intro t ht
  obtain ⟨w, _, rfl⟩ := List.mem_map.1 ht
  rfl

/-- A literal is written when it is taken, and no other literal is. -/
theorem Shifted.literals_output (h : Shifted y t z) :
    Token.literals z.output = Token.literals y.output ++ Token.literals [t.token] := by
  cases h with
  | literal n c => exact Token.literals_append _ _
  | opening n => exact (List.append_nil _).symm
  | closing n _ _ _ => rw [Token.literals_append, literals_asTokens]; rfl
  | operating n _ _ _ _ => rw [Token.literals_append, literals_asTokens]; rfl

theorem literals_of_run (run : y.run ts = .ok z) :
    Token.literals z.output =
      Token.literals y.output ++ Token.literals (ts.map PlacedToken.token) := by
  induction ts generalizing y with
  | nil =>
    cases run
    exact (List.append_nil _).symm
  | cons t ts ih =>
    obtain ⟨x, taken, rest⟩ := exists_of_bind_eq_ok run
    rw [ih rest, (shifted_of_shift taken).literals_output, List.append_assoc,
      ← Token.literals_append]
    rfl

/-- A run holds the tokens that it takes, but for the parentheses. -/
theorem perm_held_of_run (run : y.run ts = .ok z) :
    (z.held.filter fun t => !t.isParen).Perm
      ((y.held ++ ts.map PlacedToken.token).filter fun t => !t.isParen) := by
  induction ts generalizing y with
  | nil =>
    cases run
    rw [List.map_nil, List.append_nil]
  | cons t ts ih =>
    obtain ⟨x, taken, rest⟩ := exists_of_bind_eq_ok run
    have step := (shifted_of_shift taken).perm_held
    rw [List.map_cons, List.append_cons, List.filter_append]
    refine (ih rest).trans ?_
    rw [List.filter_append]
    exact step.append_right _

end Yard

/-! ### The postfix tokens of a text -/

namespace Postfix

/-- The literals of a text are written in their order. -/
theorem literals_of_ofText (h : ofText p = .ok tokens) :
    Token.literals tokens = p.filter fun c => decide (c ∉ "|*()".toList) := by
  obtain ⟨y, run, finished⟩ := exists_of_bind_eq_ok h
  obtain ⟨rfl, _⟩ := Yard.eq_held_of_finish finished
  calc Token.literals y.held
      = Token.literals y.output := by
        rw [Yard.held, Token.literals_append, Yard.literals_asTokens, List.append_nil]
    _ = Token.literals ((PlacedToken.explicit (PlacedToken.tokenize p)).map PlacedToken.token) :=
        Yard.literals_of_run run
    _ = Token.literals (p.map Token.ofSymbol) := by
        rw [(PlacedToken.interspersed_explicit _).literals_eq, PlacedToken.tokenize,
          PlacedToken.map_token_tokenizeFrom]
    _ = _ := Token.literals_map_ofSymbol p

/-- The operators of a text are written, and the concatenations put in. -/
theorem exists_perm_operators_of_ofText (h : ofText p = .ok tokens) :
    ∃ added, (PlacedToken.explicit (PlacedToken.tokenize p)).length = p.length + added ∧
      (tokens.filterMap Token.operator?).Perm
        (List.replicate (p.count '|') .union ++ List.replicate (p.count '*') .star ++
          List.replicate added .concatenation) := by
  have plain := isParen_eq_false_of_ofText h
  obtain ⟨y, run, finished⟩ := exists_of_bind_eq_ok h
  obtain ⟨rfl, _⟩ := Yard.eq_held_of_finish finished
  obtain ⟨added, length, perm⟩ :=
    (PlacedToken.interspersed_explicit (PlacedToken.tokenize p)).exists_perm
  rw [PlacedToken.length_tokenize] at length
  rw [PlacedToken.tokenize, PlacedToken.map_token_tokenizeFrom] at perm
  refine ⟨added, length, ?_⟩
  have all : y.held.filter (fun t => !t.isParen) = y.held := by
    rw [List.filter_eq_self]
    intro t ht
    rw [plain t ht]
    rfl
  have held : y.held.Perm
      ((p.map Token.ofSymbol ++ List.replicate added (Token.operator .concatenation)).filter
        fun t => !t.isParen) := by
    have taken := Yard.perm_held_of_run run
    rw [all] at taken
    exact taken.trans (perm.filter _)
  have concatenations : (List.replicate added (Token.operator .concatenation)).filterMap
      Token.operator? = List.replicate added .concatenation :=
    List.filterMap_replicate_of_some rfl
  refine (held.filterMap Token.operator?).trans ?_
  rw [List.filter_append, List.filterMap_append, List.filter_replicate_of_pos rfl, concatenations]
  exact (Token.perm_operators_map_ofSymbol p).append_right _

/-- There is at most one literal more than operators with two operands. -/
theorem countP_isLiteral_le_of_ofText (h : ofText p = .ok tokens) :
    tokens.countP Token.isLiteral ≤ tokens.countP Token.isBinary + 1 := by
  obtain ⟨y, consistent, rfl, _⟩ := exists_consistent h
  exact consistent.le_succ

end Postfix

/-- **Conservation.**  If a text has postfix tokens, these hold no parentheses; their literals are
the other characters of the text than `|`, `*`, `(` and `)`, in order; their operators are as many
unions as the text has `|`, as many stars as it has `*`, and as many concatenations as have been
added to make juxtaposition explicit; and there is at most one literal more than operators with two
operands. -/
theorem postfix_conserves_tokens (h : Postfix.ofText p = .ok tokens) :
    (∀ t ∈ tokens, t ≠ Token.operator .leftParen ∧ t ≠ Token.operator .rightParen) ∧
    Token.literals tokens = (p.filter fun c => decide (c ∉ "|*()".toList)) ∧
    (∃ added, (PlacedToken.explicit (PlacedToken.tokenize p)).length = p.length + added ∧
      (tokens.filterMap Token.operator?).Perm
        (List.replicate (p.count '|') .union ++ List.replicate (p.count '*') .star ++
          List.replicate added .concatenation)) ∧
    tokens.countP Token.isLiteral ≤ tokens.countP Token.isBinary + 1 := by
  refine ⟨?_, Postfix.literals_of_ofText h, Postfix.exists_perm_operators_of_ofText h,
    Postfix.countP_isLiteral_le_of_ofText h⟩
  intro t ht
  have plain := Postfix.isParen_eq_false_of_ofText h t ht
  constructor
  · rintro rfl
    cases plain
  · rintro rfl
    cases plain

/-- In this text a star and two bars lack operands, and one concatenation is put in. -/
theorem postfix_of_misplaced_operators_conserves_tokens :
    Postfix.ofText "*|(a|)b*".toList =
        .ok [.operator .star, .literal 'a', .operator .union, .literal 'b', .operator .star,
          .operator .concatenation, .operator .union] ∧
      ([.star, .union, .star, .concatenation, .union] : List Operator).Perm
        (List.replicate 2 .union ++ List.replicate 2 .star ++ List.replicate 1 .concatenation) := by
  have written : Postfix.ofText "*|(a|)b*".toList =
      .ok [.operator .star, .literal 'a', .operator .union, .literal 'b', .operator .star,
        .operator .concatenation, .operator .union] := by decide
  obtain ⟨_, _, ⟨added, length, operators⟩, _⟩ := postfix_conserves_tokens written
  have explicit :
      (PlacedToken.explicit (PlacedToken.tokenize "*|(a|)b*".toList)).length = 8 + 1 := by decide
  rw [explicit] at length
  obtain rfl : 1 = added := Nat.add_left_cancel length
  exact ⟨written, operators⟩

end PatternAutomata
