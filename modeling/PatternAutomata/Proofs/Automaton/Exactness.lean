import PatternAutomata.Proofs.Automaton.Naming

/-!
# Subset construction is exact

The state that a text leads to in the subset automaton stands for the set of states that the given
automaton can be in after that text, neither more nor less: it is named after this set, accepts as
the set does, and is shared by exactly the texts that lead to the same set.

* `walk_subsetAutomaton_eq_iff` — texts lead to one state exactly if they lead to one set;
* `eq_of_names_subsetAutomaton_eq` — different states have different names;
* `exists_deadName_subsetAutomaton_iff` — when there is a state for the empty set;
* `determinize_is_exact` — all this about determinizing any well-formed automaton.
-/

namespace PatternAutomata

namespace Automaton

variable {A : Automaton} {p q base : State} {v w : Text}

/-- Texts lead to one state of the subset automaton exactly if they lead to one set of states. -/
theorem walk_subsetAutomaton_eq_iff (hA : A.WellFormed) (hv : A.Over v) (hw : A.Over w) :
    (A.subsetAutomaton base).walk (A.subsetAutomaton base).start v
        = (A.subsetAutomaton base).walk (A.subsetAutomaton base).start w ↔
      A.statesAfter v = A.statesAfter w := by
  rw [walk_subsetAutomaton hA hv, walk_subsetAutomaton hA hw]
  constructor
  · exact eq_of_numbered_eq (statesAfter_mem_subsets hA hv)
  · intro same
    rw [same]

/-- The state that a text leads to is named after the set of states that it leads to. -/
theorem get?_names_walk_subsetAutomaton (hA : A.WellFormed) (hw : A.Over w) :
    (A.subsetAutomaton base).names.get?
        ((A.subsetAutomaton base).walk (A.subsetAutomaton base).start w)
      = some (subsetName (A.statesAfter w)) := by
  rw [walk_subsetAutomaton hA hw]
  exact get?_names_subsetAutomaton (statesAfter_mem_subsets hA hw)

/-- Different states of the subset automaton have different names. -/
theorem eq_of_names_subsetAutomaton_eq (hp : p ∈ (A.subsetAutomaton base).states)
    (hq : q ∈ (A.subsetAutomaton base).states)
    (h : (A.subsetAutomaton base).names.get? p = (A.subsetAutomaton base).names.get? q) :
    p = q := by
  obtain ⟨S, hS, rfl⟩ := mem_states_subsetAutomaton.1 hp
  obtain ⟨T, hT, rfl⟩ := mem_states_subsetAutomaton.1 hq
  rw [get?_names_subsetAutomaton hS, get?_names_subsetAutomaton hT] at h
  rw [subsetName_injective (Option.some.inj h)]

/-- A state of the subset automaton stands for the empty set exactly if some text leads to it. -/
theorem exists_deadName_subsetAutomaton_iff (hA : A.WellFormed) :
    (∃ q ∈ (A.subsetAutomaton base).states,
        (A.subsetAutomaton base).names.get? q = some deadName) ↔
      ∃ w, A.Over w ∧ A.statesAfter w = ∅ := by
  constructor
  · intro h
    obtain ⟨q, hq, name⟩ := h
    obtain ⟨w, hw, rfl⟩ := exists_walk_subsetAutomaton hA hq
    rw [get?_names_walk_subsetAutomaton hA hw] at name
    exact ⟨w, hw, subsetName_eq_deadName_iff.1 (Option.some.inj name)⟩
  · intro h
    obtain ⟨w, hw, none⟩ := h
    have hD : (A.subsetAutomaton base).IsDfa := isDfa_subsetAutomaton hA
    refine ⟨_, hD.walk_mem hD.wellFormed.start_mem hw, ?_⟩
    rw [get?_names_walk_subsetAutomaton hA hw, subsetName_eq_deadName_iff.2 none]

/-- **Exactness.**  Determinizing a well-formed automaton gives a deterministic automaton over its
alphabet in which every text leads to one state.  This state is named after the set of states that
the text leads to in the given automaton, and accepts as this set does.  Texts share their state
exactly if they share their set, every state is shared by some texts, names tell the states apart,
and one of them is that of the empty set exactly if some text leads nowhere. -/
theorem determinize_is_exact (hA : A.WellFormed) (counter : State) :
    ∃ D next, A.determinize.runFrom counter = (.ok D, next) ∧
      D.WellFormed ∧ D.kind = .deterministic ∧ D.alphabet = A.alphabet ∧
      (∀ w q, q ∈ A.statesAfter w ↔ A.Path A.start w q) ∧
      (∀ w, A.Over w →
        (∀ q, D.Path D.start w q ↔ q = D.walk D.start w) ∧
        D.names.get? (D.walk D.start w)
          = some (if A.statesAfter w = ∅ then deadName else setText (A.statesAfter w)) ∧
        (D.walk D.start w ∈ D.accepting ↔ ∃ q, q ∈ A.statesAfter w ∧ q ∈ A.accepting)) ∧
      (∀ v w, A.Over v → A.Over w →
        (D.walk D.start v = D.walk D.start w ↔ A.statesAfter v = A.statesAfter w)) ∧
      (∀ q ∈ D.states, ∃ w, A.Over w ∧ D.walk D.start w = q) ∧
      (∀ p ∈ D.states, ∀ q ∈ D.states, D.names.get? p = D.names.get? q → p = q) ∧
      ((∃ q ∈ D.states, D.names.get? q = some deadName) ↔ ∃ w, A.Over w ∧ A.statesAfter w = ∅) ∧
      ∀ w, D.accepts w = A.accepts w := by
  have hD : (A.subsetAutomaton counter).IsDfa := isDfa_subsetAutomaton hA
  refine ⟨A.subsetAutomaton counter, counter + A.subsets.length, runFrom_determinize hA counter,
    hD.wellFormed, hD.kind, rfl, fun w q => mem_statesAfter_iff hA, ?_, ?_, ?_, ?_, ?_, ?_⟩
  · intro w hw
    refine ⟨?_, ?_, ?_⟩
    · intro q
      rw [hD.path_iff hD.wellFormed.start_mem, over_subsetAutomaton_iff, eq_comm (a := q)]
      exact and_iff_right hw
    · rw [get?_names_walk_subsetAutomaton hA hw]
      by_cases none : A.statesAfter w = ∅
      · rw [if_pos none, subsetName_eq_deadName_iff.2 none]
      · rw [if_neg none, subsetName_of_ne_empty none]
    · rw [walk_subsetAutomaton hA hw]
      exact mem_accepting_subsetAutomaton (statesAfter_mem_subsets hA hw)
  · intro v w hv hw
    exact walk_subsetAutomaton_eq_iff hA hv hw
  · intro q hq
    exact exists_walk_subsetAutomaton hA hq
  · intro p hp q hq
    exact eq_of_names_subsetAutomaton_eq hp hq
  · exact exists_deadName_subsetAutomaton_iff hA
  · intro w
    rw [Bool.eq_iff_iff, accepts_iff hD.wellFormed, accepts_iff hA]
    exact accepts_subsetAutomaton hA w

/-- Two states that lead to each other by ε, one of which reads `a`, and a state that nothing leads
to, from which `b` would lead back. -/
def eddy : Automaton :=
  compact
    { alphabet := .ofList ['a', 'b']
      states := .ofList [-2, 3, 10]
      transitions := .ofList
        [(⟨-2, none⟩, .singleton 3), (⟨3, none⟩, .singleton (-2)), (⟨3, some 'a'⟩, .singleton 3),
          (⟨10, some 'b'⟩, .singleton (-2))]
      start := -2
      accepting := .singleton 3 }

theorem wellFormed_eddy : eddy.WellFormed := wellFormed_compact (by decide)

theorem determinize_eddy_is_exact :
    eddy.WellFormed ∧ ∃ D next, eddy.determinize.runFrom 11 = (.ok D, next) ∧
      D.names.get? (D.walk D.start ['a']) = some (setText (.ofList [-2, 3])) ∧
      D.walk D.start ['a'] ∈ D.accepting ∧
      D.names.get? (D.walk D.start ['b', 'a']) = some deadName ∧
      D.walk D.start ['b', 'a'] ∉ D.accepting ∧
      D.walk D.start ['a', 'a'] = D.walk D.start [] ∧
      ∃ q ∈ D.states, D.names.get? q = some deadName := by
  refine ⟨wellFormed_eddy, ?_⟩
  obtain ⟨D, next, run, _, _, _, _, state, same, _, _, dead, _⟩ :=
    determinize_is_exact wellFormed_eddy 11
  have spelt : ∀ w : Text, (∀ c ∈ w, c = 'a' ∨ c = 'b') → eddy.Over w := by
    intro w h c hc
    rcases h c hc with rfl | rfl <;> decide
  have once := state ['a'] (spelt _ (by simp))
  have never := state ['b', 'a'] (spelt _ (by simp))
  refine ⟨D, next, run, once.2.1, once.2.2.2 (by decide), never.2.1, ?_, ?_, dead.2 ?_⟩
  · rw [never.2.2]
    decide
  · exact (same _ _ (spelt _ (by simp)) (spelt _ (by simp))).2 (by decide)
  · exact ⟨['b', 'a'], spelt _ (by simp), by decide⟩

end Automaton

end PatternAutomata
