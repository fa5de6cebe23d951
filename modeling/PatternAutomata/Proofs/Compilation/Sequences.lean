import PatternAutomata.Proofs.Automaton.Acceptance
import PatternAutomata.Proofs.Compilation.Fragments
import PatternAutomata.Proofs.Pattern.Pending

/-!
# Building any sequence of tokens

Building takes the postfix expressions and the empty sequence, and nothing else.  Every other
sequence is reported: the first token that offends, and if there is none, the operands that are left
side by side.

* `build_cases` — how building any sequence ends;
* `build_ends_as_counted` — the same in terms of what is accepted and what is reported.
-/

namespace PatternAutomata

open Automaton

variable {ts : List Token} {counter : State}

/-- What is read back from a sequence is accepted, as it is computed. -/
theorem exists_runFrom_build_accepts {found : Option Regex}
    (back : Regex.ofPostfix ts = .ok found) (counter : State) :
    ∃ A next, (build ts).runFrom counter = (.ok A, next) ∧
      ∀ w, A.accepts w = true ↔ MatchesFound found w := by
  obtain ⟨A, next, run, fragment⟩ := exists_runFrom_build back counter
  exact ⟨A, next, run, fun w =>
    (Automaton.accepts_iff fragment.wellFormed).trans (fragment.accepts_iff w)⟩

/-- Building a sequence ends in one of four ways. -/
theorem build_cases (ts : List Token) (counter : State) :
    ts = [] ∧ (∃ A next, (build ts).runFrom counter = (.ok A, next) ∧
      ∀ w, A.accepts w = true ↔ w = []) ∨
    (IsPostfix ts ∧ ∃ r : Regex, ts = r.postorder ∧ ∃ A next,
      (build ts).runFrom counter = (.ok A, next) ∧ ∀ w, A.accepts w = true ↔ r.Matches w) ∨
    (∃ n o, ts[n]? = some (.operator o) ∧ OffendsAt ts n ∧ (∀ m < n, ¬ OffendsAt ts m) ∧
      ∃ next, (build ts).runFrom counter = (.error (.parse (.ofOffence o)), next)) ∨
    ((∀ n, ¬ OffendsAt ts n) ∧ 2 ≤ pending ts ∧
      ∃ next, (build ts).runFrom counter =
        (.error (.parse (.leftoverOperands (pending ts))), next)) := by
  rcases Regex.ofPostfix_cases ts with ⟨none, back⟩ | ⟨valid, r, tokens, back⟩ |
    ⟨n, o, here, offends, first, failed⟩ | ⟨none, many, failed⟩
  · exact Or.inl ⟨none, exists_runFrom_build_accepts back counter⟩
  · exact Or.inr (Or.inl ⟨valid, r, tokens, exists_runFrom_build_accepts back counter⟩)
  · exact Or.inr (Or.inr (Or.inl ⟨n, o, here, offends, first,
      exists_runFrom_build_error failed counter⟩))
  · exact Or.inr (Or.inr (Or.inr ⟨none, many, exists_runFrom_build_error failed counter⟩))

/-- The report on an operator that offends. -/
theorem report_ofOffence (o : Operator) :
    (ParseError.ofOffence o).family = .malformedExpression ∧
      if (Token.operator o).isParen then
        (ParseError.ofOffence o).message =
          "unexpected token Op(".toList ++ [o.sign] ++ ") in postfix".toList
      else (ParseError.ofOffence o).message = "missing operand for ".toList ++ quoted [o.sign] := by
  unfold ParseError.ofOffence
  split
  · exact ⟨rfl, rfl⟩
  · exact ⟨rfl, rfl⟩

/-- Building succeeds for no token at all and for the postfix expressions. -/
theorem exists_runFrom_build_iff :
    (∃ A next, (build ts).runFrom counter = (.ok A, next)) ↔ ts = [] ∨ IsPostfix ts := by
  rcases build_cases ts counter with ⟨none, A, next, run, _⟩ | ⟨valid, _, _, A, next, run, _⟩ |
    ⟨n, o, here, offends, _, next, run⟩ | ⟨_, many, next, run⟩
  · exact iff_of_true ⟨A, next, run⟩ (Or.inl none)
  · exact iff_of_true ⟨A, next, run⟩ (Or.inr valid)
  · refine iff_of_false ?_ ?_
    · rintro ⟨_, _, built⟩
      rw [run] at built
      cases built
    · rintro (rfl | valid)
      · cases here
      · exact valid.takes n offends
  · refine iff_of_false ?_ ?_
    · rintro ⟨_, _, built⟩
      rw [run] at built
      cases built
    · rintro (rfl | valid)
      · exact absurd many (by decide)
      · rw [valid.leaves] at many
        exact absurd many (by decide)

/-- The report on a token that offends never is that operands are left side by side. -/
theorem ofOffence_ne_leftoverOperands (o : Operator) (count : Nat) :
    ParseError.ofOffence o ≠ .leftoverOperands count := by
  unfold ParseError.ofOffence
  split
  · nofun
  · nofun

/-- Operands are reported as left side by side only if no token offends, and with their number. -/
theorem of_runFrom_build_leftoverOperands {count : Nat} {next : State}
    (failed : (build ts).runFrom counter = (.error (.parse (.leftoverOperands count)), next)) :
    (∀ n, ¬ OffendsAt ts n) ∧ count = pending ts := by
  rcases build_cases ts counter with ⟨_, A, _, run, _⟩ | ⟨_, _, _, A, _, run, _⟩ |
    ⟨_, o, _, _, _, _, run⟩ | ⟨none, _, _, run⟩
  · rw [run] at failed
    cases failed
  · rw [run] at failed
    cases failed
  · rw [run] at failed
    injection failed with same
    injection same with same
    injection same with same
    exact absurd same (ofOffence_ne_leftoverOperands o count)
  · rw [run] at failed
    cases failed
    exact ⟨none, rfl⟩

/-- **Sequences of tokens.**  Building succeeds exactly for the empty sequence and for the postfix
expressions: no token is a parenthesis or finds fewer operands pending than it takes, and one is
left.  The automaton then accepts the empty text, or what the one expression with these postfix
tokens matches, in which the operand of a concatenation that was pushed later is the right one.
Otherwise a malformed expression is reported: the first token that offends, or, only if there is
none, the number of operands that are left side by side. -/
theorem build_ends_as_counted (ts : List Token) (counter : State) :
    ((∃ A next, (build ts).runFrom counter = (.ok A, next)) ↔ ts = [] ∨ IsPostfix ts) ∧
    (ts = [] ∧ (∃ A next, (build ts).runFrom counter = (.ok A, next) ∧
        ∀ w, A.accepts w = true ↔ w = []) ∨
      (IsPostfix ts ∧ ∃ r : Regex, (∀ s : Regex, ts = s.postorder ↔ s = r) ∧
        ∃ A next, (build ts).runFrom counter = (.ok A, next) ∧
          ∀ w, A.accepts w = true ↔ r.Matches w) ∨
      (∃ n o, ts[n]? = some (.operator o) ∧ OffendsAt ts n ∧ (∀ m < n, ¬ OffendsAt ts m) ∧
        ∃ (e : ParseError) (next : State), (build ts).runFrom counter = (.error (.parse e), next) ∧
          e.family = .malformedExpression ∧
          if (Token.operator o).isParen then
            e.message = "unexpected token Op(".toList ++ [o.sign] ++ ") in postfix".toList
          else e.message = "missing operand for ".toList ++ quoted [o.sign]) ∨
      ((∀ n, ¬ OffendsAt ts n) ∧ 2 ≤ pending ts ∧
        ∃ (e : ParseError) (next : State), (build ts).runFrom counter = (.error (.parse e), next) ∧
          e.family = .malformedExpression ∧
          e.message = "expected a single automaton after construction, got ".toList ++
            decimal (pending ts))) ∧
    ∀ count next, (build ts).runFrom counter = (.error (.parse (.leftoverOperands count)), next) →
      (∀ n, ¬ OffendsAt ts n) ∧ count = pending ts := by
  refine ⟨exists_runFrom_build_iff, ?_, fun _ _ => of_runFrom_build_leftoverOperands⟩
  rcases build_cases ts counter with none | ⟨valid, r, tokens, built⟩ |
    ⟨n, o, here, offends, first, next, run⟩ | ⟨none, many, next, run⟩
  · exact Or.inl none
  · have only : ∀ s : Regex, ts = s.postorder ↔ s = r := by
      intro s
      rw [tokens]
      exact ⟨fun same => (Regex.postorder_injective same).symm, fun same => by rw [same]⟩
    exact Or.inr (Or.inl ⟨valid, r, only, built⟩)
  · exact Or.inr (Or.inr (Or.inl ⟨n, o, here, offends, first, _, next, run, report_ofOffence o⟩))
  · exact Or.inr (Or.inr (Or.inr ⟨none, many, _, next, run, rfl, rfl⟩))

/-- A parenthesis is reported and not the union after it, which would lack an operand; and two
operands are left side by side although there is an operator with two operands. -/
theorem build_reports_parenthesis_and_leftovers :
    (∃ (e : ParseError) (next : State),
      (build [.literal 'a', .operator .leftParen, .operator .union]).runFrom 4 =
        (.error (.parse e), next) ∧ e.message = "unexpected token Op(() in postfix".toList) ∧
    ∃ (e : ParseError) (next : State),
      (build [.literal 'a', .literal 'b', .operator .star, .literal 'c',
        .operator .concatenation]).runFrom 4 = (.error (.parse e), next) ∧
        e.message = "expected a single automaton after construction, got 2".toList := by
  constructor
  · have here : OffendsAt [.literal 'a', .operator .leftParen, .operator .union] 1 := by decide
    have before : ∀ m < 1, ¬ OffendsAt [.literal 'a', .operator .leftParen, .operator .union] m :=
      by decide
    obtain ⟨_, ends, _⟩ :=
      build_ends_as_counted [.literal 'a', .operator .leftParen, .operator .union] 4
    rcases ends with ⟨none, _⟩ | ⟨valid, _⟩ |
      ⟨n, o, there, offends, first, e, next, run, _, report⟩ | ⟨none, _⟩
    · cases none
    · exact absurd here (valid.takes 1)
    · rcases Nat.lt_trichotomy n 1 with earlier | rfl | later
      · exact absurd offends (before n earlier)
      · cases there
        exact ⟨e, next, run, report⟩
      · exact absurd here (first 1 later)
    · exact absurd here (none 1)
  · have fits : ∀ n < 5, ¬ OffendsAt [.literal 'a', .literal 'b', .operator .star, .literal 'c',
        .operator .concatenation] n := by decide
    obtain ⟨_, ends, _⟩ := build_ends_as_counted [.literal 'a', .literal 'b', .operator .star,
      .literal 'c', .operator .concatenation] 4
    rcases ends with ⟨none, _⟩ | ⟨valid, _⟩ | ⟨n, _, _, offends, _⟩ |
      ⟨_, _, e, next, run, _, message⟩
    · cases none
    · exact absurd valid.leaves (by decide)
    · exact absurd offends (fits n offends.lt_length)
    · exact ⟨e, next, run, message.trans (by decide)⟩

end PatternAutomata
