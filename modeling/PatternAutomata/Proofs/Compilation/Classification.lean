import PatternAutomata.Proofs.Compilation.Meaning
import PatternAutomata.Proofs.Pattern.Diagnosis
import PatternAutomata.Proofs.Pattern.Pending

/-!
# How compiling ends

Compiling a pattern reports the first `)` that cannot stand where it stands, or else the last `(`
that is never closed, or else an operator that lacks operands; in all other cases it gives an
automaton.  The other two reports of the construction are never given: its tokens hold no
parentheses, and they never leave operands side by side, since a literal that makes an operand too
many comes with a concatenation.

* `exists_missingOperand` — what keeps the postfix tokens of a pattern from being read back;
* `compile_cases`, `fault_of_compile` — how compiling any pattern ends;
* `compile_ends_as_classified` — the same in terms of what is reported.
-/

namespace PatternAutomata

variable {p : Text} {tokens : List Token} {e : ParseError}

/-! ### What keeps tokens from being read back -/

/-- What keeps the postfix tokens of a pattern from being read back is an operator that lacks
operands. -/
theorem exists_missingOperand (written : Postfix.ofText p = .ok tokens)
    (failed : Regex.ofPostfix tokens = .error e) :
    ∃ o, o ≠ .leftParen ∧ o ≠ .rightParen ∧ e = .missingOperand o := by
  rcases Regex.ofPostfix_cases tokens with ⟨_, read⟩ | ⟨_, r, _, read⟩ |
    ⟨n, o, here, _, _, read⟩ | ⟨_, many, _⟩
  · rw [read] at failed
    cases failed
  · rw [read] at failed
    cases failed
  · have plain := Postfix.isParen_eq_false_of_ofText written _ (List.mem_of_getElem? here)
    rw [read, ParseError.ofOffence, if_neg (Bool.eq_false_iff.1 plain)] at failed
    cases failed
    refine ⟨o, ?_, ?_, rfl⟩
    · rintro rfl
      cases plain
    · rintro rfl
      cases plain
  · -- more than one operand would be left
    obtain ⟨y, consistent, held, _⟩ := Postfix.exists_consistent written
    have most := consistent.le_succ
    unfold Yard.literals Yard.binaries at most
    rw [← held] at most
    unfold pending at many
    omega

/-! ### The ways in which compiling ends -/

/-- Compiling a pattern ends in one of four ways. -/
theorem compile_cases (p : Text) (flags : Flags) (counter : State) :
    (∃ n, Misclosed p n ∧ (∀ m < n, ¬ Misclosed p m) ∧
      (compile p flags).runFrom counter = (.error (.parse (Yard.closeError p n)), counter)) ∨
    ((∀ n, ¬ Misclosed p n) ∧ ∃ n : Nat, Unclosed p n ∧ (∀ m, n < m → ¬ Unclosed p m) ∧
      (compile p flags).runFrom counter = (.error (.parse (.unmatchedOpen n)), counter)) ∨
    ((∀ n, ¬ Misclosed p n) ∧ (∀ n, ¬ Unclosed p n) ∧ ¬ InGrammar p ∧
      ∃ o next, o ≠ .leftParen ∧ o ≠ .rightParen ∧
        (compile p flags).runFrom counter = (.error (.parse (.missingOperand o)), next)) ∨
    ((∀ n, ¬ Misclosed p n) ∧ (∀ n, ¬ Unclosed p n) ∧ InGrammar p ∧
      ∃ A next, (compile p flags).runFrom counter = (.ok A, next)) := by
  rcases Postfix.ofText_cases p with ⟨n, misclosed, first, failed⟩ |
    ⟨closed, n, unclosed, last, failed⟩ | ⟨closed, partners, tokens, written⟩
  · left
    exact ⟨n, misclosed, first, runFrom_compile_of_ofText_error failed flags counter⟩
  · right
    left
    exact ⟨closed, n, unclosed, last, runFrom_compile_of_ofText_error failed flags counter⟩
  · right
    right
    by_cases inside : InGrammar p
    · right
      obtain ⟨A, next, run, _⟩ := exists_runFrom_compile inside flags counter
      exact ⟨closed, partners, inside, A, next, run⟩
    · left
      cases back : Regex.ofPostfix tokens with
      | ok found => exact absurd (inGrammar_of_ofPostfix written back) inside
      | error e =>
        obtain ⟨o, left, right, rfl⟩ := exists_missingOperand written back
        obtain ⟨next, run⟩ := exists_runFrom_compile_of_ofPostfix_error written back flags counter
        exact ⟨closed, partners, inside, o, next, left, right, run⟩

theorem ParseError.diagnostic_unmatchedClose (n : Int) :
    (unmatchedClose n).diagnostic = ⟨"unmatched ')'".toList, n⟩ := by
  have message : "unmatched ".toList ++ quoted [')'] = "unmatched ')'".toList := by decide
  exact congrArg (fun text => Diagnostic.mk text n) message

theorem ParseError.diagnostic_unmatchedOpen (n : Int) :
    (unmatchedOpen n).diagnostic = ⟨"unmatched '('".toList, n⟩ := by
  have message : "unmatched ".toList ++ quoted ['('] = "unmatched '('".toList := by decide
  exact congrArg (fun text => Diagnostic.mk text n) message

/-- The report of a `)` that cannot stand where it stands. -/
theorem report_closeError (p : Text) (n : Nat) :
    if FollowsOpening p n then
      (Yard.closeError p n).family = .malformedExpression ∧
        (Yard.closeError p n).diagnostic = ⟨"empty group".toList, n⟩
    else
      (Yard.closeError p n).family = .unbalancedParentheses ∧
        (Yard.closeError p n).diagnostic = ⟨"unmatched ')'".toList, n⟩ := by
  unfold Yard.closeError
  split
  · exact ⟨rfl, rfl⟩
  · exact ⟨rfl, ParseError.diagnostic_unmatchedClose n⟩

/-- Compiling a pattern ends with no other faults than the parse errors of these cases. -/
theorem fault_of_compile {flags : Flags} {counter next : State} {fault : Fault}
    (failed : (compile p flags).runFrom counter = (.error fault, next)) :
    (∃ n, fault = .parse (.emptyGroup n)) ∨ (∃ n, fault = .parse (.unmatchedClose n)) ∨
      (∃ n, fault = .parse (.unmatchedOpen n)) ∨ ∃ o, fault = .parse (.missingOperand o) := by
  rcases compile_cases p flags counter with ⟨n, _, _, run⟩ | ⟨_, n, _, _, run⟩ |
    ⟨_, _, _, o, _, _, _, run⟩ | ⟨_, _, _, A, _, run⟩
  · rw [run] at failed
    cases failed
    unfold Yard.closeError
    split
    · exact Or.inl ⟨n, rfl⟩
    · exact Or.inr (Or.inl ⟨n, rfl⟩)
  · rw [run] at failed
    cases failed
    exact Or.inr (Or.inr (Or.inl ⟨n, rfl⟩))
  · rw [run] at failed
    cases failed
    exact Or.inr (Or.inr (Or.inr ⟨o, rfl⟩))
  · rw [run] at failed
    cases failed

/-- **Errors.**  Compiling a pattern ends in exactly one of four ways.  If some `)` closes an empty
group or none, the first such `)` is reported.  Else, if some `(` is never closed, the last such `(`
is reported.  Else, if the pattern is not in the grammar, an operator is reported that lacks
operands.  Else there is an automaton.  A report that blames a stray parenthesis in a postfix
sequence, or operands left side by side, or parts of an automaton that do not fit, is never
given. -/
theorem compile_ends_as_classified (p : Text) (flags : Flags) (counter : State) :
    ((∃ n, Misclosed p n ∧ (∀ m < n, ¬ Misclosed p m) ∧
      ∃ e : ParseError, (compile p flags).runFrom counter = (.error (.parse e), counter) ∧
        if FollowsOpening p n then
          e.family = .malformedExpression ∧ e.diagnostic = ⟨"empty group".toList, n⟩
        else e.family = .unbalancedParentheses ∧ e.diagnostic = ⟨"unmatched ')'".toList, n⟩) ∨
    ((∀ n, ¬ Misclosed p n) ∧ ∃ n, Unclosed p n ∧ (∀ m, n < m → ¬ Unclosed p m) ∧
      ∃ e : ParseError, (compile p flags).runFrom counter = (.error (.parse e), counter) ∧
        e.family = .unbalancedParentheses ∧ e.diagnostic = ⟨"unmatched '('".toList, n⟩) ∨
    ((∀ n, ¬ Misclosed p n) ∧ (∀ n, ¬ Unclosed p n) ∧ p ≠ [] ∧ ¬ InGrammar p ∧
      ∃ (e : ParseError) (o : Operator) (next : State),
        (compile p flags).runFrom counter = (.error (.parse e), next) ∧
        e.family = .malformedExpression ∧
        e.diagnostic = ⟨"missing operand for ".toList ++ quoted [o.sign], -1⟩) ∨
    ((∀ n, ¬ Misclosed p n) ∧ (∀ n, ¬ Unclosed p n) ∧ InGrammar p ∧
      ∃ A next, (compile p flags).runFrom counter = (.ok A, next))) ∧
    ∀ fault next, (compile p flags).runFrom counter = (.error fault, next) →
      (∀ o, fault ≠ .parse (.strayParenthesis o)) ∧
      (∀ count, fault ≠ .parse (.leftoverOperands count)) ∧ ∀ rule, fault ≠ .violation rule := by
  refine ⟨?_, ?_⟩
  · rcases compile_cases p flags counter with ⟨n, misclosed, first, run⟩ |
      ⟨closed, n, unclosed, last, run⟩ | ⟨closed, partners, outside, o, next, _, _, run⟩ |
      grammatical
    · exact Or.inl ⟨n, misclosed, first, _, run, report_closeError p n⟩
    · exact Or.inr (Or.inl ⟨closed, n, unclosed, last, _, run, rfl,
        ParseError.diagnostic_unmatchedOpen n⟩)
    · have nonempty : p ≠ [] := fun empty => outside (Or.inl empty)
      exact Or.inr (Or.inr (Or.inl ⟨closed, partners, nonempty, outside, _, o, next, run, rfl,
        rfl⟩))
    · exact Or.inr (Or.inr (Or.inr grammatical))
  · intro fault next failed
    rcases fault_of_compile failed with ⟨n, rfl⟩ | ⟨n, rfl⟩ | ⟨n, rfl⟩ | ⟨o, rfl⟩
    · exact ⟨nofun, nofun, nofun⟩
    · exact ⟨nofun, nofun, nofun⟩
    · exact ⟨nofun, nofun, nofun⟩
    · exact ⟨nofun, nofun, nofun⟩

/-- An empty group is reported although it is inside groups that are never closed, and the last of
two groups that are never closed. -/
theorem unpaired_parentheses_are_reported :
    (∃ e : ParseError, (compile "((a()b".toList {}).runFrom 5 = (.error (.parse e), 5) ∧
      e.family = .malformedExpression ∧ e.diagnostic = ⟨"empty group".toList, 4⟩) ∧
    ∃ e : ParseError, (compile "(a(b".toList { minimize := true }).runFrom 5 =
        (.error (.parse e), 5) ∧
      e.family = .unbalancedParentheses ∧ e.diagnostic = ⟨"unmatched '('".toList, 2⟩ := by
  constructor
  · have here : Misclosed "((a()b".toList 4 := by decide
    have before : ∀ m < 4, ¬ Misclosed "((a()b".toList m := by decide
    rcases (compile_ends_as_classified "((a()b".toList {} 5).1 with
      ⟨n, misclosed, first, e, run, report⟩ | ⟨closed, _⟩ | ⟨closed, _⟩ | ⟨closed, _⟩
    · rcases Nat.lt_trichotomy n 4 with earlier | rfl | later
      · exact absurd misclosed (before n earlier)
      · rw [if_pos (by decide)] at report
        exact ⟨e, run, report⟩
      · exact absurd here (first 4 later)
    · exact absurd here (closed 4)
    · exact absurd here (closed 4)
    · exact absurd here (closed 4)
  · have here : Unclosed "(a(b".toList 2 := by decide
    have after : ∀ m < 4, 2 < m → ¬ Unclosed "(a(b".toList m := by decide
    have closed : ∀ n < 4, ¬ Misclosed "(a(b".toList n := by decide
    rcases (compile_ends_as_classified "(a(b".toList { minimize := true } 5).1 with
      ⟨n, misclosed, _⟩ | ⟨_, n, unclosed, last, report⟩ | ⟨_, partners, _⟩ | ⟨_, partners, _⟩
    · exact absurd misclosed (closed n misclosed.lt_length)
    · rcases Nat.lt_trichotomy n 2 with earlier | rfl | later
      · exact absurd here (last 2 earlier)
      · exact report
      · exact absurd unclosed (after n unclosed.lt_length later)
    · exact absurd here (partners 2)
    · exact absurd here (partners 2)

end PatternAutomata
