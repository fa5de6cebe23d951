import PatternAutomata.Proofs.Automaton.BlockOrder
import PatternAutomata.Proofs.Automaton.Comparison
import PatternAutomata.Proofs.Automaton.StateClasses

/-!
# Minimizing twice

Minimizing numbers the states by the order of the last partition.  If the result is minimized again,
each round splits the same block by the same symbol: blocks are sets of texts to both.  Its parts
stand in the same order too, although they are now ordered by the new numbers, since these follow the
last partition, and that one keeps the parts in the order in which they were put.  So the second
minimizing numbers the states as the first did.

* `NumberedBy` — an automaton numbered by the refinement of another;
* `NumberedBy.valuesOn_eq` — values that its blocks have in the order of the last partition;
* `NumberedBy.sameParts_splitFirst?` — a round;
* `NumberedBy.forall₂_refine` — all rounds;
* `minimize_is_idempotent` — minimizing a minimized automaton once more.
-/

namespace PatternAutomata

namespace Automaton

variable {A B D : Automaton} {blocks blocks' : List Block} {b d : Block} {f g : State → Nat}
  {base : State}

/-- Counterparts of which the states of the second are numbered from `base` like the blocks in the
refinement of the first to which the same texts lead. -/
structure NumberedBy (A B : Automaton) (base : State) : Prop extends Counterparts A B where
  walk_eq : ∀ w, A.Over w → B.walk B.start w = blockNumber A.refine base (A.walk A.start w)

namespace NumberedBy

/-- If the values on a block stand in the order of the last partition, the same values stand in this
order on the block of the second automaton that goes with it. -/
theorem valuesOn_eq (h : A.NumberedBy B base) (hbd : A.SameTexts B b d)
    (hfg : ∀ w, A.Over w → f (A.walk A.start w) = g (B.walk B.start w))
    (order : ∀ q r, q ∈ b → r ∈ b → place A.refine q < place A.refine r →
      (valuesOn f b).idxOf (f q) ≤ (valuesOn f b).idxOf (f r)) :
    valuesOn g d = valuesOn f b := by
  have reached : ∀ m, m ∈ d → ∃ w, A.Over w ∧ A.walk A.start w ∈ b ∧ m = B.walk B.start w := by
    intro m hm
    obtain ⟨w, hw, rfl⟩ := h.right_reached m (hbd.right_subset m hm)
    have hw := h.toCounterparts.over_iff.1 hw
    exact ⟨w, hw, (hbd.mem_iff w hw).2 hm, rfl⟩
  refine distinct_eq_of_pairwise_idxOf (nodup_distinct _) ?_ ?_
  · intro n
    rw [mem_valuesOn_iff, List.mem_map]
    constructor
    · rintro ⟨m, hm, rfl⟩
      obtain ⟨w, hw, hb, rfl⟩ := reached m hm
      exact ⟨_, hb, hfg w hw⟩
    · rintro ⟨q, hq, rfl⟩
      obtain ⟨w, hw, rfl⟩ := h.left_reached q (hbd.left_subset q hq)
      exact ⟨_, (hbd.mem_iff w hw).1 hq, (hfg w hw).symm⟩
  · rw [List.pairwise_map]
    refine d.ascending.imp_of_mem ?_
    intro m n hm hn less
    obtain ⟨u, hu, hub, rfl⟩ := reached m hm
    obtain ⟨v, hv, hvb, rfl⟩ := reached n hn
    rw [← hfg u hu, ← hfg v hv]
    refine order _ _ hub hvb ?_
    -- the numbers of states are the places of blocks
    rw [h.walk_eq u hu, h.walk_eq v hv] at less
    exact Int.ofNat_lt.1 (Int.add_lt_add_iff_left base |>.1 less)

/-- A round splits blocks that go together, if the order of the parts is that of the last
partition. -/
theorem sameParts_splitFirst? (h : A.NumberedBy B base)
    (hblocks : List.Forall₂ (A.SameTexts B) blocks blocks') (apart : Apart blocks)
    (order : ∀ finer, A.splitFirst? A.columns blocks blocks = some finer →
      KeepsOrder finer A.refine) :
    A.SameParts B (A.splitFirst? A.columns blocks blocks)
      (B.splitFirst? B.columns blocks' blocks') := by
  refine Automaton.sameParts_splitFirst? hblocks ?_
  intro pre b post d shape before hbd
  have new : ∀ q, q ∈ b → ¬ ∃ x ∈ pre, q ∈ x := by
    rintro q hq ⟨x, hx, hqx⟩
    rw [shape] at apart
    exact (List.pairwise_append.1 apart).2.2 x hx b List.mem_cons_self q hqx hq
  refine h.toCounterparts.sameParts_parts? hblocks hbd ?_
  intro c hc hparts
  have replaced : A.splitFirst? A.columns blocks blocks =
      some (pre ++ split (A.target blocks c) b ++ post) := by
    have first := splitFirst?_of_first before hparts post
    rwa [← shape] at first
  have kept := order _ replaced
  have values := h.valuesOn_eq hbd (fun w hw => target_eq_of_forall₂ hblocks hw hc)
    fun q r hq hr => kept.idxOf_le hq hr (new q hq) (new r hr)
  exact values.symm

/-- The blocks of the two refinements go together. -/
theorem forall₂_refine (h : A.NumberedBy B base) :
    List.Forall₂ (A.SameTexts B) A.refine B.refine := by
  refine h.toCounterparts.forall₂_refine ?_
  intro blocks blocks' partition settles hblocks
  have hA := h.left
  refine h.sameParts_splitFirst? hblocks partition.apart ?_
  intro finer hs
  cases settles with
  | done stable =>
    rw [stable] at hs
    cases hs
  | round hs' tail =>
    rw [hs'] at hs
    cases hs
    exact tail.keepsOrder hA (partition.splitFirst hA hs').1

end NumberedBy

/-! ### Minimizing twice -/

/-- The reachable part of a minimized automaton is numbered by the refinement that it was made
from. -/
theorem IsReachablePart.numberedBy {N : Automaton} (h : D.IsReachablePart A)
    (part : (A.quotientBy A.refine base).IsReachablePart N) : A.NumberedBy N base where
  left := h.isDfa
  right := part.isDfa
  left_reached := h.allReachable
  right_reached := part.allReachable
  alphabet := part.alphabet
  accepts_iff := by
    intro w
    have congruence := isCongruence_refine h.isDfa
    rw [part.accepts_iff (congruence.isDfa_quotientBy h.isDfa),
      congruence.accepts_quotientBy h.isDfa]
  walk_eq := by
    intro w hw
    have congruence := isCongruence_refine h.isDfa
    rw [part.walk_eq hw, start_quotientBy,
      congruence.walk_quotientBy h.isDfa h.isDfa.wellFormed.start_mem hw]

/-- **Minimizing twice.**  Minimizing a well-formed automaton of either kind, and then minimizing the
result, gives the result of the first time with a constant added to every state: the alphabet, the
start state, the accepting states and the transitions are the same, and only the names differ. -/
theorem minimize_is_idempotent (hA : A.WellFormed) (i j : State) :
    ∃ M m N n k, A.minimize.runFrom i = (.ok M, m) ∧ M.minimize.runFrom j = (.ok N, n) ∧
      IsIsomorphism (· + k) M N ∧ ∀ q l, N.ends (q + k) l = (M.ends q l).map (· + k) := by
  obtain ⟨D, next, made, hD, _⟩ := exists_runFrom_ensureDeterministic hA i
  obtain ⟨B, part, minimized⟩ := hD.exists_runFrom_minimize
  have hM : (B.quotientBy B.refine next).IsDfa := part.reduced_quotientBy.isDfa
  obtain ⟨N, again, minimizedAgain⟩ := hM.exists_runFrom_minimize
  have numbered := part.numberedBy again
  have shifted := numbered.toCounterparts.isIsomorphism_quotientBy numbered.forall₂_refine next j
  exact ⟨_, _, _, _, j - next, (runFrom_minimize_of_dfa made hD).trans (minimized next),
    minimizedAgain j, shifted, shifted.ends_eq fun _ _ => (Int.add_left_inj _).1⟩

/-- The start state of `descent` is the last of its three classes that are reached, and stays so. -/
theorem minimize_descent_is_idempotent :
    descent.WellFormed ∧ ∃ M m N n k, descent.minimize.runFrom 10 = (.ok M, m) ∧
      M.minimize.runFrom 31 = (.ok N, n) ∧ M.start = 12 ∧ N.start = 12 + k ∧
      ∀ q l, N.ends (q + k) l = (M.ends q l).map (· + k) := by
  obtain ⟨M, m, N, n, k, first, second, shifted, ends⟩ :=
    minimize_is_idempotent isDfa_descent.wellFormed 10 31
  have start : M.start = 12 := by
    have computed : (descent.minimize.runFrom 10).1.toOption.map Automaton.start = some 12 := by
      decide
    rw [first] at computed
    exact Option.some.inj computed
  exact ⟨isDfa_descent.wellFormed, M, m, N, n, k, first, second, start,
    shifted.start.trans (by rw [start]), ends⟩

end Automaton

end PatternAutomata
