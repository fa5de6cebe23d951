import PatternAutomata.Proofs.Automaton.Refinement

/-!
# The classes of equivalent states

The refinement of a deterministic automaton ends, and lists the classes of states that no text tells
apart.  A round puts the parts of a block in its place, so the classes of accepting states stay in
front of the others, where they stand in the beginning.

* `AcceptingFirst` — the blocks of accepting states come before those of other states;
* `AcceptingFirst.replace`, `AcceptingFirst.splitFirst`, `Settles.acceptingFirst` — replacing a block
  by its parts, a round, and all rounds keep it so;
* `refinement_lists_state_classes` — all about the refinement in one statement;
* `descent` — an automaton with two states that no text tells apart.
-/

namespace PatternAutomata

namespace Automaton

variable {A : Automaton} {blocks finer settled pre post : List Block} {b : Block}

/-! ### Accepting states come first -/

/-- The blocks of accepting states come before those of other states. -/
def AcceptingFirst (A : Automaton) (blocks : List Block) : Prop :=
  ∃ front back, blocks = front ++ back ∧ (∀ b ∈ front, ∀ q, q ∈ b → q ∈ A.accepting) ∧
    ∀ b ∈ back, ∀ q, q ∈ b → q ∉ A.accepting

theorem acceptingFirst_halves (A : Automaton) : A.AcceptingFirst A.halves := by
  refine ⟨[A.accepting].filter fun b => !b.isEmpty,
    [A.states.sdiff A.accepting].filter fun b => !b.isEmpty, ?_, ?_, ?_⟩
  · rw [← List.filter_append]
    rfl
  · intro b hb q hq
    rw [List.mem_singleton.1 (List.mem_filter.1 hb).1] at hq
    exact hq
  · intro b hb q hq
    rw [List.mem_singleton.1 (List.mem_filter.1 hb).1] at hq
    exact (SortedSet.mem_sdiff.1 hq).2

/-- Replacing a block by its parts leaves accepting states in front. -/
theorem AcceptingFirst.replace (h : A.AcceptingFirst (pre ++ b :: post)) (f : State → Nat) :
    A.AcceptingFirst (pre ++ split f b ++ post) := by
  obtain ⟨front, back, shape, accepting, rejecting⟩ := h
  -- the block stands in front or, at its beginning or later, in the back
  rcases List.append_eq_append_iff.1 shape with ⟨mid, rfl, rest⟩ | ⟨mid, rfl, rfl⟩
  · cases mid with
    | nil =>
      rw [List.nil_append] at rest
      subst rest
      refine ⟨pre, split f b ++ post, List.append_assoc .., ?_, ?_⟩
      · rwa [List.append_nil] at accepting
      · exact @forall_mem_replace [] post b _ f rejecting
    | cons d mid =>
      obtain ⟨rfl, rfl⟩ := List.cons.inj rest
      exact ⟨pre ++ split f b ++ mid, back, (List.append_assoc ..).symm,
        forall_mem_replace f accepting, rejecting⟩
  · refine ⟨front, mid ++ split f b ++ post, ?_, accepting, forall_mem_replace f rejecting⟩
    simp only [List.append_assoc]

/-- A round leaves accepting states in front. -/
theorem AcceptingFirst.splitFirst (h : A.AcceptingFirst blocks) (hA : A.IsDfa)
    (partition : A.IsPartition blocks)
    (hs : A.splitFirst? A.columns blocks blocks = some finer) : A.AcceptingFirst finer := by
  obtain ⟨pre, b, c, post, rfl, _, _, rfl⟩ := partition.exists_of_splitFirst? hA hs
  exact h.replace _

theorem Settles.acceptingFirst (h : A.Settles blocks settled) (hA : A.IsDfa)
    (partition : A.IsPartition blocks) (first : A.AcceptingFirst blocks) :
    A.AcceptingFirst settled := by
  induction h with
  | done _ => exact first
  | round hs _ ih => exact ih (partition.splitFirst hA hs).1 (first.splitFirst hA partition hs)

/-! ### The refinement as a whole -/

/-- **State classes.**  The refinement of a deterministic automaton starts with the accepting states
and the others and ends after finitely many rounds.  Its blocks are not empty, no two share a state,
and together they hold exactly the states, be they reached or not.  The blocks of accepting states
come before those of other states, and two states share a block exactly if every text over the
alphabet leads from both to accepting states or from neither. -/
theorem refinement_lists_state_classes (hA : A.IsDfa) :
    A.Settles A.halves A.refine ∧
    (∀ b ∈ A.refine, ∃ q, q ∈ b) ∧
    A.refine.Pairwise (fun b d => ∀ q, q ∈ b → q ∉ d) ∧
    (∀ q, q ∈ A.states ↔ ∃ b ∈ A.refine, q ∈ b) ∧
    (∃ front back, A.refine = front ++ back ∧
      (∀ b ∈ front, ∀ q, q ∈ b → q ∈ A.accepting) ∧
      ∀ b ∈ back, ∀ q, q ∈ b → q ∉ A.accepting) ∧
    (∀ q ∈ A.states, ∀ w, A.Over w → ∀ r, A.Path q w r ↔ r = A.walk q w) ∧
    ∀ q ∈ A.states, ∀ r ∈ A.states,
      ((∃ b ∈ A.refine, q ∈ b ∧ r ∈ b) ↔
        ∀ w, A.Over w → (A.walk q w ∈ A.accepting ↔ A.walk r w ∈ A.accepting)) := by
  have settles := settles_refine hA
  have partition := (refines_refine hA).isPartition
  refine ⟨settles, partition.nonempty, partition.apart, partition.mem_states_iff, ?_, ?_, ?_⟩
  · exact settles.acceptingFirst hA hA.wellFormed.isPartition_halves A.acceptingFirst_halves
  · intro q hq w hw r
    rw [hA.path_iff hq, eq_comm (a := r)]
    exact and_iff_right hw
  · intro q hq r hr
    exact together_refine_iff hA hq hr

/-- Two states that lead to an accepting one, and a third that leads to one of them; nothing leads to
the other. -/
def descent : Automaton :=
  compact
    { alphabet := .singleton 'a'
      states := .ofList [-1, 2, 4, 9]
      transitions := .ofList
        [(⟨4, some 'a'⟩, .singleton (-1)), (⟨-1, some 'a'⟩, .singleton 9),
          (⟨2, some 'a'⟩, .singleton 9), (⟨9, some 'a'⟩, .singleton 9)]
      start := 4
      accepting := .singleton 9
      kind := .deterministic }

theorem isDfa_descent : descent.IsDfa :=
  ⟨wellFormed_compact (by decide), rfl⟩

/-- No text tells `-1` and `2` apart, since they share a block; a text of one symbol tells `-1` and
`4` apart, so these do not. -/
theorem refinement_of_descent_lists_state_classes :
    descent.IsDfa ∧ descent.Settles descent.halves descent.refine ∧
      (∀ w, descent.Over w →
        (descent.walk (-1) w ∈ descent.accepting ↔ descent.walk 2 w ∈ descent.accepting)) ∧
      ¬ ∃ b ∈ descent.refine, -1 ∈ b ∧ 4 ∈ b := by
  obtain ⟨settles, _, _, _, _, _, classes⟩ := refinement_lists_state_classes isDfa_descent
  refine ⟨isDfa_descent, settles, ?_, ?_⟩
  · exact (classes (-1) (by decide) 2 (by decide)).1 (by decide)
  · intro shared
    have spelt : descent.Over ['a'] := over_cons.2 ⟨by decide, over_nil descent⟩
    have alike := (classes (-1) (by decide) 4 (by decide)).1 shared ['a'] spelt
    exact absurd alike (by decide)

end Automaton

end PatternAutomata
