import Mathlib.Data.List.Induction
import Mathlib.Data.Nat.Find
import PatternAutomata.Proofs.Pattern.Operands

/-!
# Which sequences of tokens are postfix expressions

Whether a sequence of tokens can be read back is told by counting, with no stack: a token offends if
it is a parenthesis or if fewer operands are pending than it takes, and pending is what the literals
before it have put there and the operators with two operands have not yet used.

* `Token.operands`, `pending`, `OffendsAt` — what a token takes, what is there, and the tokens that
  do not find what they take;
* `IsPostfix`, `isPostfix_iff` — the sequences in which no token offends and that leave one operand
  are the postfix tokens of the expressions;
* `Regex.exists_combineAll_of_not_offendsAt` — the stack is as high as there are operands pending;
* `Regex.combineAll_of_first_offence` — the first token that offends is reported;
* `Regex.ofPostfix_cases` — how reading any sequence back ends.
-/

namespace PatternAutomata

variable {ts us : List Token} {t : Token} {n : Nat} {stack : List Regex} {e : ParseError}

/-- The number of operands that a token takes. -/
def Token.operands : Token → Nat
  | .operator .star => 1
  | .operator .concatenation => 2
  | .operator .union => 2
  | _ => 0

/-- The number of operands that are pending after a sequence of tokens: every literal puts one
there, and every operator with two operands makes one of them. -/
def pending (ts : List Token) : Nat := ts.countP Token.isLiteral - ts.countP Token.isBinary

/-- The token at `n` is a parenthesis, or fewer operands are pending than it takes. -/
def OffendsAt (ts : List Token) (n : Nat) : Prop :=
  ∃ t ∈ ts[n]?, t.isParen = true ∨ pending (ts.take n) < t.operands

instance (ts : List Token) (n : Nat) : Decidable (OffendsAt ts n) :=
  inferInstanceAs (Decidable (∃ t ∈ ts[n]?, _))

/-- No token offends, and one operand is left. -/
structure IsPostfix (ts : List Token) : Prop where
  takes : ∀ n, ¬ OffendsAt ts n
  leaves : pending ts = 1

/-- What is reported on an operator that offends. -/
def ParseError.ofOffence (o : Operator) : ParseError :=
  if (Token.operator o).isParen then .strayParenthesis o else .missingOperand o

/-! ### Tokens that offend -/

theorem OffendsAt.lt_length (h : OffendsAt ts n) : n < ts.length := by
  obtain ⟨t, ht, _⟩ := h
  exact (List.getElem?_eq_some_iff.1 ht).1

/-- Whether a token offends is settled by the tokens up to it. -/
theorem offendsAt_append_iff (h : n < ts.length) : OffendsAt (ts ++ us) n ↔ OffendsAt ts n := by
  unfold OffendsAt
  rw [List.getElem?_append_left h, List.take_append_of_le_length (Nat.le_of_lt h)]

theorem offendsAt_length_iff :
    OffendsAt (ts ++ t :: us) ts.length ↔ t.isParen = true ∨ pending ts < t.operands := by
  unfold OffendsAt
  rw [List.getElem?_append_right (Nat.le_refl _), Nat.sub_self, List.take_left]
  constructor
  · rintro ⟨s, hs, offends⟩
    cases hs
    exact offends
  · intro offends
    exact ⟨t, rfl, offends⟩

/-- In front of the first token that offends, none does. -/
theorem not_offendsAt_take (first : ∀ m < n, ¬ OffendsAt ts m) (m : Nat) :
    ¬ OffendsAt (ts.take n) m := by
  intro offends
  have short := offends.lt_length
  rw [List.length_take] at short
  refine first m (Nat.lt_of_lt_of_le short (Nat.min_le_left n _)) ?_
  rw [← List.take_append_drop n ts]
  refine (offendsAt_append_iff ?_).2 offends
  rwa [List.length_take]

namespace Regex

/-! ### One token -/

/-- A token that finds the operands it takes is taken. -/
theorem exists_combine_eq_ok (plain : t.isParen = false) (enough : t.operands ≤ stack.length) :
    ∃ stack', combine stack t = .ok stack' := by
  cases t with
  | literal c => exact ⟨_, rfl⟩
  | operator o =>
    cases o with
    | star =>
      rcases stack with _ | ⟨r, rest⟩
      · cases enough
      · exact ⟨_, rfl⟩
    | concatenation =>
      rcases stack with _ | ⟨s, _ | ⟨r, rest⟩⟩
      · cases enough
      · exact absurd enough (Nat.not_le.2 (Nat.lt_succ_self 1))
      · exact ⟨_, rfl⟩
    | union =>
      rcases stack with _ | ⟨s, _ | ⟨r, rest⟩⟩
      · cases enough
      · exact absurd enough (Nat.not_le.2 (Nat.lt_succ_self 1))
      · exact ⟨_, rfl⟩
    | leftParen => cases plain
    | rightParen => cases plain

/-- A token that offends is an operator, and reported. -/
theorem exists_combine_eq_error (offends : t.isParen = true ∨ stack.length < t.operands) :
    ∃ o, t = .operator o ∧ combine stack t = .error (.ofOffence o) := by
  cases t with
  | literal c =>
    rcases offends with paren | few
    · cases paren
    · exact absurd few (Nat.not_lt_zero _)
  | operator o =>
    refine ⟨o, rfl, ?_⟩
    cases o with
    | star =>
      have few := offends.resolve_left nofun
      rcases stack with _ | ⟨r, rest⟩
      · rfl
      · exact absurd few (Nat.not_lt.2 (Nat.le_add_left 1 rest.length))
    | concatenation =>
      have few := offends.resolve_left nofun
      rcases stack with _ | ⟨s, _ | ⟨r, rest⟩⟩
      · rfl
      · rfl
      · exact absurd few (Nat.not_lt.2 (Nat.le_add_left 2 rest.length))
    | union =>
      have few := offends.resolve_left nofun
      rcases stack with _ | ⟨s, _ | ⟨r, rest⟩⟩
      · rfl
      · rfl
      · exact absurd few (Nat.not_lt.2 (Nat.le_add_left 2 rest.length))
    | leftParen => rfl
    | rightParen => rfl

/-! ### Whole sequences -/

/-- A sequence leaves as many operands as it has literals more than operators with two operands. -/
theorem countP_of_combineAll (h : combineAll [] ts = .ok stack) :
    ts.countP Token.isLiteral = ts.countP Token.isBinary + stack.length := by
  have counted := countP_flatMap_postorder stack.reverse
  rw [flatMap_postorder_combineAll h, List.length_reverse] at counted
  exact counted

theorem length_of_combineAll (h : combineAll [] ts = .ok stack) : stack.length = pending ts := by
  rw [pending, countP_of_combineAll h, Nat.add_sub_cancel_left]

/-- If no token offends, all are taken. -/
theorem exists_combineAll_of_not_offendsAt (h : ∀ n, ¬ OffendsAt ts n) :
    ∃ stack, combineAll [] ts = .ok stack := by
  induction ts using List.reverseRecOn with
  | nil => exact ⟨[], rfl⟩
  | append_singleton ts t ih =>
    obtain ⟨stack, taken⟩ := ih fun n offends =>
      h n ((offendsAt_append_iff offends.lt_length).2 offends)
    have fits := h ts.length
    rw [offendsAt_length_iff, not_or, ← length_of_combineAll taken, Nat.not_lt] at fits
    obtain ⟨stack', last⟩ := exists_combine_eq_ok (Bool.eq_false_iff.2 fits.1) fits.2
    refine ⟨stack', ?_⟩
    rw [combineAll_append, taken]
    show (combine stack t).bind _ = _
    rw [last]
    rfl

/-- The first token that offends is reported, whatever comes after it. -/
theorem combineAll_of_first_offence (offends : OffendsAt ts n)
    (first : ∀ m < n, ¬ OffendsAt ts m) :
    ∃ o, ts[n]? = some (.operator o) ∧ combineAll [] ts = .error (.ofOffence o) := by
  obtain ⟨t, ht, cause⟩ := offends
  obtain ⟨stack, taken⟩ := exists_combineAll_of_not_offendsAt (not_offendsAt_take first)
  rw [← length_of_combineAll taken] at cause
  obtain ⟨o, rfl, failed⟩ := exists_combine_eq_error cause
  refine ⟨o, ht, ?_⟩
  obtain ⟨short, here⟩ := List.getElem?_eq_some_iff.1 ht
  rw [← List.take_append_drop n ts, List.drop_eq_getElem_cons short, here, combineAll_append, taken]
  show (combine stack (.operator o)).bind _ = _
  rw [failed]
  rfl

/-- Reading a sequence back ends in one of four ways. -/
theorem ofPostfix_cases (ts : List Token) :
    ts = [] ∧ ofPostfix ts = .ok none ∨
    (IsPostfix ts ∧ ∃ r, ts = r.postorder ∧ ofPostfix ts = .ok (some r)) ∨
    (∃ n o, ts[n]? = some (.operator o) ∧ OffendsAt ts n ∧ (∀ m < n, ¬ OffendsAt ts m) ∧
      ofPostfix ts = .error (.ofOffence o)) ∨
    ((∀ n, ¬ OffendsAt ts n) ∧ 2 ≤ pending ts ∧
      ofPostfix ts = .error (.leftoverOperands (pending ts))) := by
  by_cases some : ∃ n, OffendsAt ts n
  · right
    right
    left
    obtain ⟨o, here, failed⟩ :=
      combineAll_of_first_offence (Nat.find_spec some) fun m => Nat.find_min some
    refine ⟨Nat.find some, o, here, Nat.find_spec some, fun m => Nat.find_min some, ?_⟩
    rw [ofPostfix, failed]
    rfl
  · have none : ∀ n, ¬ OffendsAt ts n := fun n offends => some ⟨n, offends⟩
    obtain ⟨stack, taken⟩ := exists_combineAll_of_not_offendsAt none
    have back : ofPostfix ts = outcome stack := by rw [ofPostfix, taken]; rfl
    have height := length_of_combineAll taken
    rcases stack with _ | ⟨r, _ | ⟨s, rest⟩⟩
    · exact Or.inl ⟨ofPostfix_eq_none_iff.1 back, back⟩
    · exact Or.inr (Or.inl ⟨⟨none, height.symm⟩, r, ofPostfix_eq_some_iff.1 back, back⟩)
    · have many : 2 ≤ pending ts := by
        rw [← height]
        exact Nat.le_add_left 2 rest.length
      refine Or.inr (Or.inr (Or.inr ⟨none, many, ?_⟩))
      rw [← height]
      exact back

end Regex

/-- The sequences in which no token offends and that leave one operand are the postfix tokens of the
expressions. -/
theorem isPostfix_iff : IsPostfix ts ↔ ∃ r : Regex, ts = r.postorder := by
  constructor
  · intro h
    rcases Regex.ofPostfix_cases ts with ⟨rfl, _⟩ | ⟨_, r, tokens, _⟩ | ⟨n, _, _, offends, _⟩ |
      ⟨_, many, _⟩
    · exact absurd h.leaves (by decide)
    · exact ⟨r, tokens⟩
    · exact absurd offends (h.takes n)
    · rw [h.leaves] at many
      exact absurd many (by decide)
  · rintro ⟨r, rfl⟩
    have back := Regex.ofPostfix_postorder r
    rcases Regex.ofPostfix_cases r.postorder with ⟨_, read⟩ | ⟨valid, _⟩ |
      ⟨_, _, _, _, _, read⟩ | ⟨_, _, read⟩
    · rw [read] at back
      cases back
    · exact valid
    · rw [read] at back
      cases back
    · rw [read] at back
      cases back

end PatternAutomata
