import PatternAutomata.Proofs.Automaton.Acceptance
import PatternAutomata.Proofs.Automaton.Exactness
import PatternAutomata.Proofs.Automaton.Minimality

/-!
# Both ways to run an automaton decide its paths

Acceptance is computed on sets of states, or from state to state if the automaton is deterministic.
The second way takes for granted that every symbol of the alphabet leads to exactly one state.  For
the automata that are run in this way it does, and both ways give the same answer.

* `answerAlong?` — the run from state to state, which has no answer where a symbol leads to no state
  or to several;
* `acceptsAlong_eq_getD` — what `acceptsAlong` computes is this answer;
* `IsDfa.exists_answerAlong?` — a deterministic automaton always has one;
* `acceptance_decides_paths` — what is accepted in both ways.
-/

namespace PatternAutomata

namespace Automaton

variable {A : Automaton} {q : State} {c : Symbol} {u v w : Text}

/-- Reads a text from one state, where every symbol of the alphabet has to lead to exactly one
state. -/
def answerAlong? (A : Automaton) : State → Text → Option Bool
  | q, [] => some (decide (q ∈ A.accepting))
  | q, c :: rest =>
    if c ∈ A.alphabet then (A.successor? q c).bind fun e => A.answerAlong? e rest else some false

/-- Without an answer, the text counts as rejected. -/
theorem acceptsAlong_eq_getD (A : Automaton) (q : State) (w : Text) :
    A.acceptsAlong q w = (A.answerAlong? q w).getD false := by
  induction w generalizing q with
  | nil => rfl
  | cons c w ih =>
    rw [acceptsAlong, answerAlong?]
    by_cases hc : c ∈ A.alphabet
    · rw [if_pos hc, if_pos hc]
      cases A.successor? q c with
      | none => rfl
      | some e => exact ih e
    · rw [if_neg hc, if_neg hc]
      rfl

/-- From a state of a deterministic automaton there is always an answer: each symbol leads to one
state, from which the same holds of the rest of the text. -/
theorem IsDfa.exists_answerAlong? (hA : A.IsDfa) (hq : q ∈ A.states) (w : Text) :
    ∃ answer, A.answerAlong? q w = some answer := by
  induction w generalizing q with
  | nil => exact ⟨_, rfl⟩
  | cons c w ih =>
    rw [answerAlong?]
    by_cases hc : c ∈ A.alphabet
    · rw [if_pos hc, hA.successor?_eq hq hc]
      exact ih (hA.advance_mem hq hc)
    · rw [if_neg hc]
      exact ⟨false, rfl⟩

theorem IsDfa.answerAlong?_eq (hA : A.IsDfa) (hq : q ∈ A.states) :
    A.answerAlong? q w = some (A.acceptsAlong q w) := by
  obtain ⟨answer, found⟩ := hA.exists_answerAlong? hq w
  rw [acceptsAlong_eq_getD, found]
  rfl

theorem IsDfa.accepts_eq_acceptsAlong (hA : A.IsDfa) (w : Text) :
    A.accepts w = A.acceptsAlong A.start w := by
  rw [accepts, if_pos hA.isDeterministic]

/-- A text with a symbol outside the alphabet is rejected. -/
theorem accepts_eq_false_of_not_mem (hA : A.WellFormed) (hc : c ∉ A.alphabet) :
    A.accepts (u ++ c :: v) = false := by
  rw [Bool.eq_false_iff]
  intro accepted
  have spelt : A.Over (u ++ c :: v) := Accepts.over hA ((accepts_iff hA).1 accepted)
  exact hc (over_cons.1 (over_append.1 spelt).2).1

/-- **Path semantics.**  A well-formed automaton of either kind accepts the texts that paths from
its start state to its accepting states spell, their ε transitions skipped, and no text with a
symbol outside the alphabet.  Run from state to state, a deterministic automaton never finds a
symbol of the alphabet that leads to no state or to several, and answers as it does when it is run
on sets of states: after a text over the alphabet it is in the one state that paths lead to. -/
theorem acceptance_decides_paths (hA : A.WellFormed) :
    (∀ w, A.accepts w = true ↔ ∃ q ∈ A.accepting, A.Path A.start w q) ∧
    (∀ u c v, c ∉ A.alphabet → A.accepts (u ++ c :: v) = false) ∧
    (A.kind = .deterministic →
      (∀ w, A.answerAlong? A.start w = some (A.accepts w)) ∧
      (∀ w, A.accepts w = A.acceptsFrom A.initial w) ∧
      ∀ w, A.Over w → ∃ q, (∀ p, A.Path A.start w p ↔ p = q) ∧
        ∀ c ∈ A.alphabet, ∃ e ∈ A.states, A.ends q (some c) = .singleton e) := by
  refine ⟨fun w => accepts_iff hA, fun u c v => accepts_eq_false_of_not_mem hA, ?_⟩
  intro kind
  have hD : A.IsDfa := ⟨hA, kind⟩
  have start : A.start ∈ A.states := hA.start_mem
  refine ⟨?_, ?_, ?_⟩
  · intro w
    rw [hD.accepts_eq_acceptsAlong, hD.answerAlong?_eq start]
  · intro w
    rw [hD.accepts_eq_acceptsAlong, hD.initial_eq, hD.acceptsFrom_singleton start]
  · intro w hw
    refine ⟨A.walk A.start w, ?_, ?_⟩
    · intro p
      rw [hD.path_iff start, eq_comm (a := p)]
      exact and_iff_right hw
    · intro c hc
      have here : A.walk A.start w ∈ A.states := hD.walk_mem start hw
      exact ⟨_, hD.advance_mem here hc, hD.ends_some here hc⟩

theorem acceptance_of_eddy_and_pendulum :
    (eddy.WellFormed ∧ eddy.accepts ['a', 'a'] = true ∧ eddy.accepts ['a', '-', 'a'] = false) ∧
    (pendulum.WellFormed ∧ pendulum.kind = .deterministic ∧
      pendulum.answerAlong? (-3) ['a', 'a', 'a'] = some true ∧
      pendulum.acceptsFrom pendulum.initial ['a', 'a', 'a'] = true ∧
      ∀ p, pendulum.Path (-3) ['a'] p ↔ p = 5) := by
  have toThree : (3 : State) ∈ eddy.ends (-2) none := by decide
  have loop : (3 : State) ∈ eddy.ends 3 (some 'a') := by decide
  have forth : (5 : State) ∈ pendulum.ends (-3) (some 'a') := by decide
  have back : (-3 : State) ∈ pendulum.ends 5 (some 'a') := by decide
  refine ⟨⟨wellFormed_eddy, ?_⟩, wellFormed_pendulum, rfl, ?_⟩
  · obtain ⟨accepts, foreign, _⟩ := acceptance_decides_paths wellFormed_eddy
    refine ⟨(accepts ['a', 'a']).2 ⟨3, by decide, ?_⟩, foreign ['a'] '-' ['a'] (by decide)⟩
    exact .silent toThree (.read loop (.read loop (.refl 3)))
  · obtain ⟨accepts, _, dfa⟩ := acceptance_decides_paths wellFormed_pendulum
    obtain ⟨answer, same, one⟩ := dfa rfl
    have accepted : pendulum.accepts ['a', 'a', 'a'] = true := by
      refine (accepts _).2 ⟨5, by decide, ?_⟩
      exact .read forth (.read back (.read forth (.refl 5)))
    refine ⟨?_, ?_, ?_⟩
    · rw [← accepted]
      exact answer _
    · rw [← same, accepted]
    · obtain ⟨q, path, _⟩ := one ['a'] (over_cons.2 ⟨by decide, over_nil _⟩)
      have there : pendulum.Path (-3) ['a'] 5 := .read forth (.refl 5)
      rw [(path 5).1 there]
      exact path

end Automaton

end PatternAutomata
