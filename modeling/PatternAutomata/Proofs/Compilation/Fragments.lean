import PatternAutomata.Compilation.Construction
import PatternAutomata.Proofs.Automaton.Composition
import PatternAutomata.Proofs.Pattern.Readback

/-!
# Automata built from postfix tokens

Building an automaton goes through the same stacks as reading the tokens back into expressions: each
expression on the one stack has its automaton on the other.  These automata have consecutive states
that they share with no other, so no operand is ever relabelled, and nothing can go wrong but what
goes wrong in reading back.

* `consecutive_or_consecutive_iff`, `eq_or_consecutive_iff` — states that follow each other;
* `Fragment` — a nondeterministic automaton with consecutive states for the texts of an expression;
* `Fragment.union`, `Fragment.concatenate`, `Fragment.star` — the compositions are fragments, and
  `Fragment.runFrom_union`, `Fragment.runFrom_concatenate`, `Fragment.runFrom_star` make them;
* `Stacked` — the automata of a stack of expressions;
* `Stacked.step`, `Stacked.run` — taking one token, and several;
* `exists_runFrom_build`, `exists_runFrom_build_error` — the automaton of a postfix sequence, and
  the error if there is none.
-/

namespace PatternAutomata

/-! ### Consecutive states -/

section Consecutive

variable {low mid high q : Int}

theorem eq_iff_consecutive : q = low ↔ low ≤ q ∧ q < low + 1 := by omega

theorem eq_or_eq_iff_consecutive : (q = low ∨ q = low + 1) ↔ low ≤ q ∧ q < low + 1 + 1 := by omega

/-- The states of two automata follow each other. -/
theorem consecutive_or_consecutive_iff (left : low ≤ mid) (right : mid ≤ high) :
    ((low ≤ q ∧ q < mid) ∨ mid ≤ q ∧ q < high) ↔ low ≤ q ∧ q < high := by omega

/-- So does a new state. -/
theorem eq_or_consecutive_iff (le : low ≤ high) :
    (q = high ∨ low ≤ q ∧ q < high) ↔ low ≤ q ∧ q < high + 1 := by omega

end Consecutive

open Automaton

variable {A B : Automaton} {r s : Regex} {low mid high base counter : State} {t : Token}
  {ts : List Token} {stack : List Automaton} {trees trees' : List Regex} {e : ParseError}

/-! ### Fragments -/

/-- A nondeterministic automaton with the states from `low` up to `high` that accepts the texts with
the property `matching`, over the literals among `tokens`. -/
structure Fragment (matching : Text → Prop) (tokens : List Token) (low high : State)
    (A : Automaton) : Prop where
  wellFormed : A.WellFormed
  kind : A.kind = .nondeterministic
  mem_states_iff : ∀ q, q ∈ A.states ↔ low ≤ q ∧ q < high
  accepts_iff : ∀ w, A.Accepts w ↔ matching w
  mem_alphabet_iff : ∀ c, c ∈ A.alphabet ↔ Token.literal c ∈ tokens

theorem Fragment.lt (h : Fragment r.Matches ts low high A) : low < high := by
  obtain ⟨least, less⟩ := (h.mem_states_iff _).1 h.wellFormed.start_mem
  exact Int.lt_of_le_of_lt least less

/-- Fragments that follow each other share no states. -/
theorem Fragment.disjoint (hA : Fragment r.Matches ts low mid A)
    {us : List Token} (hB : Fragment s.Matches us mid high B) : A.states.Disjoint B.states := by
  intro q hq hqB
  have below := ((hA.mem_states_iff q).1 hq).2
  have above := ((hB.mem_states_iff q).1 hqB).1
  exact Int.lt_irrefl q (Int.lt_of_lt_of_le below above)

theorem Fragment.high_not_mem (hA : Fragment r.Matches ts low mid A) (most : mid ≤ high) :
    high ∉ A.states := by
  intro mem
  have below := ((hA.mem_states_iff high).1 mem).2
  exact Int.lt_irrefl high (Int.lt_of_lt_of_le below most)

theorem fragment_symbol (c : Symbol) (counter : State) :
    Fragment (Regex.literal c).Matches (Regex.literal c).postorder counter (counter + 1 + 1)
      (symbolAt c counter).compact where
  wellFormed := (fits_symbolAt c counter).wellFormed_compact
  kind := rfl
  mem_states_iff := by
    intro q
    show q ∈ SortedSet.ofList [counter, counter + 1] ↔ _
    rw [SortedSet.mem_ofList, List.mem_cons, List.mem_singleton]
    exact eq_or_eq_iff_consecutive
  accepts_iff := by
    intro w
    rw [accepts_compact, accepts_symbolAt, Regex.matches_literal_iff]
  mem_alphabet_iff := by
    intro d
    show d ∈ SortedSet.singleton c ↔ _
    rw [SortedSet.mem_singleton, Regex.postorder, List.mem_singleton, Token.literal.injEq]

section Compositions

variable (hA : Fragment r.Matches r.postorder low mid A)
  (hB : Fragment s.Matches s.postorder mid high B)

include hA hB

theorem Fragment.fits_unionFrom : (unionFrom high A B).Fits :=
  Automaton.fits_unionFrom hA.wellFormed hB.wellFormed (hA.disjoint hB)
    (hA.high_not_mem (Int.le_of_lt hB.lt)) (hB.high_not_mem (Int.le_refl high))

theorem Fragment.runFrom_union :
    (A.union B).runFrom high = (.ok (unionFrom high A B).compact, high + 1) :=
  Automaton.runFrom_union hA.kind (hA.disjoint hB) (hA.fits_unionFrom hB)

theorem Fragment.union :
    Fragment (r.union s).Matches (r.union s).postorder low (high + 1)
      (unionFrom high A B).compact where
  wellFormed := (hA.fits_unionFrom hB).wellFormed_compact
  kind := rfl
  mem_states_iff := by
    intro q
    rw [← eq_or_consecutive_iff (Int.le_of_lt (Int.lt_trans hA.lt hB.lt)),
      ← consecutive_or_consecutive_iff (Int.le_of_lt hA.lt) (Int.le_of_lt hB.lt),
      ← hA.mem_states_iff, ← hB.mem_states_iff, ← SortedSet.mem_union]
    exact SortedSet.mem_insert
  accepts_iff := by
    intro w
    rw [accepts_compact, accepts_unionFrom hA.wellFormed hB.wellFormed (hA.disjoint hB)
      (hA.high_not_mem (Int.le_of_lt hB.lt)) (hB.high_not_mem (Int.le_refl high)),
      hA.accepts_iff, hB.accepts_iff, Regex.matches_union_iff]
  mem_alphabet_iff := by
    intro c
    show c ∈ A.alphabet.union B.alphabet ↔ _
    rw [SortedSet.mem_union, hA.mem_alphabet_iff, hB.mem_alphabet_iff, Regex.postorder]
    simp

theorem Fragment.fits_followedBy : (followedBy A B).Fits :=
  Automaton.fits_followedBy hA.wellFormed hB.wellFormed (hA.disjoint hB)

theorem Fragment.runFrom_concatenate :
    (A.concatenate B).runFrom high = (.ok (followedBy A B).compact, high) :=
  Automaton.runFrom_concatenate hA.kind (hA.disjoint hB) (hA.fits_followedBy hB)

theorem Fragment.concatenate :
    Fragment (r.concat s).Matches (r.concat s).postorder low high (followedBy A B).compact where
  wellFormed := (hA.fits_followedBy hB).wellFormed_compact
  kind := rfl
  mem_states_iff := by
    intro q
    show q ∈ A.states.union B.states ↔ _
    rw [SortedSet.mem_union, hA.mem_states_iff, hB.mem_states_iff]
    exact consecutive_or_consecutive_iff (Int.le_of_lt hA.lt) (Int.le_of_lt hB.lt)
  accepts_iff := by
    intro w
    rw [accepts_compact, accepts_followedBy hA.wellFormed hB.wellFormed (hA.disjoint hB),
      Regex.matches_concat_iff]
    simp only [hA.accepts_iff, hB.accepts_iff]
  mem_alphabet_iff := by
    intro c
    show c ∈ A.alphabet.union B.alphabet ↔ _
    rw [SortedSet.mem_union, hA.mem_alphabet_iff, hB.mem_alphabet_iff, Regex.postorder]
    simp

omit hB

theorem Fragment.fits_iteratedFrom : (iteratedFrom mid A).Fits :=
  Automaton.fits_iteratedFrom hA.wellFormed (hA.high_not_mem (Int.le_refl mid))

theorem Fragment.runFrom_star :
    A.star.runFrom mid = (.ok (iteratedFrom mid A).compact, mid + 1) :=
  Automaton.runFrom_star hA.kind hA.fits_iteratedFrom

theorem Fragment.star :
    Fragment r.star.Matches r.star.postorder low (mid + 1) (iteratedFrom mid A).compact where
  wellFormed := hA.fits_iteratedFrom.wellFormed_compact
  kind := rfl
  mem_states_iff := by
    intro q
    rw [← eq_or_consecutive_iff (Int.le_of_lt hA.lt), ← hA.mem_states_iff]
    exact SortedSet.mem_insert
  accepts_iff := by
    intro w
    rw [accepts_compact, accepts_iteratedFrom hA.wellFormed (hA.high_not_mem (Int.le_refl mid)),
      Regex.matches_star_iff]
    simp only [hA.accepts_iff]
  mem_alphabet_iff := by
    intro c
    show c ∈ A.alphabet ↔ _
    rw [hA.mem_alphabet_iff, Regex.postorder]
    simp

end Compositions

/-! ### Stacks -/

/-- The automata of the expressions on a stack, the latest first.  Their states follow each other
from `base` up to the counter. -/
inductive Stacked (base : State) : State → List Automaton → List Regex → Prop where
  | nil : Stacked base base [] []
  | cons {low high : State} {A : Automaton} {r : Regex} {stack : List Automaton}
      {trees : List Regex} : Stacked base low stack trees →
      Fragment r.Matches r.postorder low high A → Stacked base high (A :: stack) (r :: trees)

/-- Taking a token makes the automaton of the expression that it makes. -/
theorem Stacked.step (h : Stacked base counter stack trees)
    (combined : Regex.combine trees t = .ok trees') :
    ∃ stack' next, (Construction.step stack t).runFrom counter = (.ok stack', next) ∧
      Stacked base next stack' trees' := by
  cases t with
  | literal c =>
    cases combined
    refine ⟨_, _, ?_, .cons h (fragment_symbol c counter)⟩
    rw [Construction.step, Fresh.runFrom_bind, runFrom_symbol]
    rfl
  | operator o =>
    cases o with
    | star =>
      cases h with
      | nil => cases combined
      | cons below hA =>
        cases combined
        refine ⟨_, _, ?_, .cons below hA.star⟩
        rw [Construction.step, Fresh.runFrom_bind, hA.runFrom_star]
        rfl
    | concatenation =>
      cases h with
      | nil => cases combined
      | cons below hB =>
        cases below with
        | nil => cases combined
        | cons below hA =>
          cases combined
          refine ⟨_, _, ?_, .cons below (hA.concatenate hB)⟩
          rw [Construction.step, Fresh.runFrom_bind, hA.runFrom_concatenate hB]
          rfl
    | union =>
      cases h with
      | nil => cases combined
      | cons below hB =>
        cases below with
        | nil => cases combined
        | cons below hA =>
          cases combined
          refine ⟨_, _, ?_, .cons below (hA.union hB)⟩
          rw [Construction.step, Fresh.runFrom_bind, hA.runFrom_union hB]
          rfl
    | leftParen => cases combined
    | rightParen => cases combined

/-- A token that finds fewer operands than it combines, or is a parenthesis, is reported. -/
theorem Stacked.step_error (h : Stacked base counter stack trees)
    (failed : Regex.combine trees t = .error e) :
    (Construction.step stack t).runFrom counter = (.error (.parse e), counter) := by
  cases t with
  | literal c => cases failed
  | operator o =>
    cases o with
    | star =>
      cases h with
      | nil =>
        cases failed
        rfl
      | cons below hA => cases failed
    | concatenation =>
      cases h with
      | nil =>
        cases failed
        rfl
      | cons below hB =>
        cases below with
        | nil =>
          cases failed
          rfl
        | cons below hA => cases failed
    | union =>
      cases h with
      | nil =>
        cases failed
        rfl
      | cons below hB =>
        cases below with
        | nil =>
          cases failed
          rfl
        | cons below hA => cases failed
    | leftParen =>
      cases failed
      rfl
    | rightParen =>
      cases failed
      rfl

/-- Taking tokens makes the automata of the expressions that they make. -/
theorem Stacked.run (h : Stacked base counter stack trees)
    (combined : Regex.combineAll trees ts = .ok trees') :
    ∃ stack' next, (Construction.run stack ts).runFrom counter = (.ok stack', next) ∧
      Stacked base next stack' trees' := by
  induction ts generalizing stack trees counter with
  | nil =>
    cases combined
    exact ⟨stack, counter, rfl, h⟩
  | cons t ts ih =>
    obtain ⟨between, first, combined⟩ := exists_of_bind_eq_ok combined
    obtain ⟨stack', next, step, stacked⟩ := h.step first
    obtain ⟨stack'', last, rest, stacked⟩ := ih stacked combined
    refine ⟨stack'', last, ?_, stacked⟩
    rw [Construction.run, Fresh.runFrom_bind, step]
    exact rest

/-- The first error in reading the tokens back is reported. -/
theorem Stacked.run_error (h : Stacked base counter stack trees)
    (failed : Regex.combineAll trees ts = .error e) :
    ∃ next, (Construction.run stack ts).runFrom counter = (.error (.parse e), next) := by
  induction ts generalizing stack trees counter with
  | nil => cases failed
  | cons t ts ih =>
    rw [Construction.run, Fresh.runFrom_bind]
    rcases error_or_of_bind_eq_error failed with first | ⟨between, first, failed⟩
    · rw [h.step_error first]
      exact ⟨counter, rfl⟩
    · obtain ⟨stack', next, step, stacked⟩ := h.step first
      rw [step]
      exact ih stacked failed

theorem Stacked.length_eq (h : Stacked base counter stack trees) :
    stack.length = trees.length := by
  induction h with
  | nil => rfl
  | cons _ _ ih => rw [List.length_cons, List.length_cons, ih]

/-! ### Whole sequences -/

/-- The texts that an expression matches; no expression stands for the empty text. -/
def MatchesFound : Option Regex → Text → Prop
  | none, w => w = []
  | some r, w => r.Matches w

theorem fragment_epsilon (counter : State) :
    Fragment (MatchesFound none) [] counter (counter + 1) (epsilonAt counter).compact where
  wellFormed := (fits_epsilonAt counter).wellFormed_compact
  kind := rfl
  mem_states_iff := by
    intro q
    show q ∈ SortedSet.singleton counter ↔ _
    rw [SortedSet.mem_singleton]
    exact eq_iff_consecutive
  accepts_iff := by
    intro w
    rw [accepts_compact, accepts_epsilonAt]
    rfl
  mem_alphabet_iff := fun c => iff_of_false (SortedSet.not_mem_empty c) List.not_mem_nil

/-- Building a postfix sequence gives the automaton of the expression that is read back from it. -/
theorem exists_runFrom_build {found : Option Regex} (back : Regex.ofPostfix ts = .ok found)
    (counter : State) :
    ∃ A next, (build ts).runFrom counter = (.ok A, next) ∧
      Fragment (MatchesFound found) ts counter next A := by
  have tokens := Regex.eq_of_ofPostfix back
  obtain ⟨trees, combined, left⟩ := exists_of_bind_eq_ok back
  have empty : Stacked counter counter [] [] := .nil
  obtain ⟨stack, next, run, stacked⟩ := empty.run combined
  rw [build, Fresh.runFrom_bind, run]
  cases stacked with
  | nil =>
    cases left
    rw [tokens]
    exact ⟨_, _, runFrom_epsilon counter, fragment_epsilon counter⟩
  | cons below fragment =>
    cases below with
    | nil =>
      cases left
      rw [tokens]
      exact ⟨_, _, rfl, fragment⟩
    | cons _ _ => cases left

/-- Building a postfix sequence reports what keeps it from being read back. -/
theorem exists_runFrom_build_error (failed : Regex.ofPostfix ts = .error e) (counter : State) :
    ∃ next, (build ts).runFrom counter = (.error (.parse e), next) := by
  have empty : Stacked counter counter [] [] := .nil
  rw [build, Fresh.runFrom_bind]
  rcases error_or_of_bind_eq_error failed with combined | ⟨trees, combined, left⟩
  · obtain ⟨next, run⟩ := empty.run_error combined
    rw [run]
    exact ⟨next, rfl⟩
  · obtain ⟨stack, next, run, stacked⟩ := empty.run combined
    rw [run]
    have length := stacked.length_eq
    cases stacked with
    | nil => cases left
    | cons below _ =>
      cases below with
      | nil => cases left
      | cons _ _ =>
        cases left
        rw [← length]
        exact ⟨next, rfl⟩

end PatternAutomata
