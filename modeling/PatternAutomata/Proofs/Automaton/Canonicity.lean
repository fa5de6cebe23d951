import PatternAutomata.Proofs.Automaton.Comparison

/-!
# The order of the blocks depends on the accepted texts alone

If the states of two deterministic automata ascend in the order of the texts that lead to them, and
the automata accept the same texts, then they are minimized in step.  So minimizing numbers the
blocks alike, and the results differ by a constant.

* `InBreadthOrder.allReachable` — such states are all reached;
* `Alike` — two automata of this kind; `Alike.valuesOn_eq`, `Alike.inStep` — they are minimized in
  step;
* `exists_shift_minimize` — the minimal automata.
-/

namespace PatternAutomata

namespace Automaton

variable {A B D : Automaton} {b d : Block} {f g : State → Nat}

/-! ### Automata in breadth order -/

theorem InBreadthOrder.allReachable (h : A.InBreadthOrder) : A.AllReachable := by
  obtain ⟨n, hn⟩ := h
  intro q hq
  rw [hn n (Nat.le_refl n), mem_distinct] at hq
  obtain ⟨w, hw, rfl⟩ := List.mem_map.1 hq
  exact ⟨w, symbol_mem_of_mem_textsUpTo hw, rfl⟩

/-- Dropping no states keeps the order. -/
theorem IsReachablePart.inBreadthOrder (h : D.IsReachablePart B) (hD : D.InBreadthOrder) :
    B.InBreadthOrder := by
  have states : B.states = D.states := by
    apply SortedSet.ext
    intro q
    rw [h.mem_states_iff]
    constructor
    · intro reached
      obtain ⟨n, hn⟩ := hD
      obtain ⟨w, hw, rfl⟩ := reached
      rw [SortedSet.mem_def, hn (max n w.length) (Nat.le_max_left _ _), mem_distinct]
      exact List.mem_map.2 ⟨w, mem_textsUpTo hw (Nat.le_max_right _ _), rfl⟩
    · exact hD.allReachable q
  obtain ⟨n, hn⟩ := hD
  refine ⟨n, fun m hm => ?_⟩
  rw [states, hn m hm, h.alphabet]
  congr 1
  exact map_textsUpTo_congr fun w hw => (h.walk_eq hw).symm

/-- The members of a block are listed in the order of the texts that lead to them. -/
theorem toList_eq_of_states_toList {texts : List Text}
    (states : A.states.toList = distinct (texts.map (A.walk A.start))) (hb : b ⊆ A.states) :
    b.toList = distinct ((texts.filter fun w => decide (A.walk A.start w ∈ b)).map
      (A.walk A.start)) := by
  have selected : b.toList = A.states.toList.filter fun q => decide (q ∈ b) := by
    apply SortedSet.eq_of_pairwise_of_mem_iff b.ascending (A.states.ascending.filter _)
    intro q
    rw [List.mem_filter, decide_eq_true_eq]
    constructor
    · intro hq
      exact ⟨hb q hq, hq⟩
    · intro h
      exact h.2
  rw [selected, states, filter_distinct, List.filter_map]
  rfl

/-! ### Two automata in breadth order -/

/-- Counterparts with their states in the order of the texts that lead to them. -/
structure Alike (A B : Automaton) : Prop extends Counterparts A B where
  left_order : A.InBreadthOrder
  right_order : B.InBreadthOrder

/-- Functions that agree after every text have the same values in the same order on blocks to which
the same texts lead. -/
theorem Alike.valuesOn_eq (h : A.Alike B) (hbd : A.SameTexts B b d)
    (hfg : ∀ w, A.Over w → f (A.walk A.start w) = g (B.walk B.start w)) :
    valuesOn f b = valuesOn g d := by
  obtain ⟨m, hm⟩ := h.left_order
  obtain ⟨n, hn⟩ := h.right_order
  have left := toList_eq_of_states_toList (hm (max m n) (Nat.le_max_left m n)) hbd.left_subset
  have right := toList_eq_of_states_toList (hn (max m n) (Nat.le_max_right m n)) hbd.right_subset
  rw [h.alphabet] at right
  show distinct (b.toList.map f) = distinct (d.toList.map g)
  rw [left, right, distinct_map_distinct, distinct_map_distinct, List.map_map, List.map_map]
  congr 1
  have selected : ∀ w ∈ textsUpTo A.alphabet.toList (max m n),
      decide (A.walk A.start w ∈ b) = decide (B.walk B.start w ∈ d) := by
    intro w hw
    rw [decide_eq_decide]
    exact hbd.mem_iff w (symbol_mem_of_mem_textsUpTo hw)
  rw [List.filter_congr selected]
  apply List.map_congr_left
  intro w hw
  exact hfg w (symbol_mem_of_mem_textsUpTo (List.mem_filter.1 hw).1)

/-- They are minimized in step. -/
theorem Alike.inStep (h : A.Alike B) : A.InStep B where
  toCounterparts := h.toCounterparts
  valuesOn_eq := fun _ _ _ _ => h.valuesOn_eq

/-! ### The minimal automata -/

/-- Minimizing deterministic automata whose states ascend in the order of the texts that lead to
them gives results that differ by a constant if they accept the same texts. -/
theorem exists_shift_minimize (hA : A.IsDfa) (hB : B.IsDfa) (orderA : A.InBreadthOrder)
    (orderB : B.InBreadthOrder) (alphabet : B.alphabet = A.alphabet)
    (same : ∀ w, A.Accepts w ↔ B.Accepts w) (i j : State) :
    ∃ M N m n k, A.minimize.runFrom i = (.ok M, m) ∧ B.minimize.runFrom j = (.ok N, n) ∧
      IsIsomorphism (· + k) M N := by
  obtain ⟨A', partA, minimizedA⟩ := hA.exists_runFrom_minimize
  obtain ⟨B', partB, minimizedB⟩ := hB.exists_runFrom_minimize
  have alike : A'.Alike B' := by
    refine ⟨⟨partA.isDfa, partB.isDfa, partA.allReachable, partB.allReachable, ?_, ?_⟩,
      partA.inBreadthOrder orderA, partB.inBreadthOrder orderB⟩
    · rw [partB.alphabet, alphabet, partA.alphabet]
    · intro w
      rw [partA.accepts_iff hA, partB.accepts_iff hB, same]
  exact ⟨_, _, _, _, _, minimizedA i, minimizedB j, alike.inStep.isIsomorphism_quotientBy i j⟩

/-- So does minimizing nondeterministic automata. -/
theorem exists_shift_minimize_of_nondeterministic (hA : A.WellFormed) (hB : B.WellFormed)
    (kindA : A.kind = .nondeterministic) (kindB : B.kind = .nondeterministic)
    (alphabet : B.alphabet = A.alphabet) (same : ∀ w, A.Accepts w ↔ B.Accepts w) (i j : State) :
    ∃ M N m n k, A.minimize.runFrom i = (.ok M, m) ∧ B.minimize.runFrom j = (.ok N, n) ∧
      IsIsomorphism (· + k) M N := by
  obtain ⟨C, i', madeC, hC, alphabetC, acceptsC, orderC⟩ :=
    exists_runFrom_ensureDeterministic hA i
  obtain ⟨D, j', madeD, hD, alphabetD, acceptsD, orderD⟩ :=
    exists_runFrom_ensureDeterministic hB j
  rw [runFrom_minimize_of_dfa madeC hC, runFrom_minimize_of_dfa madeD hD]
  refine exists_shift_minimize hC hD (orderC kindA) (orderD kindB) ?_ ?_ i' j'
  · rw [alphabetD, alphabet, alphabetC]
  · intro w
    rw [acceptsC, acceptsD, same]

end Automaton

end PatternAutomata
