import Mathlib.Algebra.Group.Basic
import Mathlib.Algebra.Group.Int.Defs
import PatternAutomata.Proofs.Automaton.Exactness
import PatternAutomata.Proofs.Automaton.Isomorphism

/-!
# Determinizing a deterministic automaton

Every text leads a deterministic automaton to a set of one state, so that its subset automaton has
one state for each state that texts lead to, and none for the empty set.  The sets are discovered as
the texts lead to them.  The states of a subset automaton already stand in this order: determinized
once more it is numbered as before, also if one of its states stands for the empty set.

* `IsDfa.subsets_eq_map_singleton` — the discovered sets have one member;
* `IsDfa.isIsomorphism_subsetAutomaton` — the subset automaton is the reachable part, renamed;
* `IsDfa.get?_names_subsetAutomaton_iff` — its states are named after the states that they stand
  for;
* `numbered_subsets_subsetAutomaton` — the sets that are discovered in a subset automaton are
  numbered as its states are;
* `determinizing_again_only_renames` — both about determinizing itself.
-/

namespace PatternAutomata

namespace Automaton

variable {A B : Automaton} {p q base : State} {S : SortedSet State} {f : State → State}

namespace IsDfa

/-! ### The discovered sets -/

/-- The discovered sets have one member, and come in the order in which texts lead to the states. -/
theorem subsets_eq_map_singleton (hA : A.IsDfa) :
    ∃ n, ∀ m, n ≤ m → A.subsets =
      (distinct ((textsUpTo A.alphabet.toList m).map (A.walk A.start))).map .singleton := by
  obtain ⟨n, hn⟩ := subsets_eq_distinct hA.wellFormed
  refine ⟨n, fun m hm => ?_⟩
  have sets : (textsUpTo A.alphabet.toList m).map A.statesAfter
      = ((textsUpTo A.alphabet.toList m).map (A.walk A.start)).map .singleton := by
    rw [List.map_map]
    exact map_textsUpTo_congr fun w hw => hA.statesAfter_eq hw
  rw [hn m hm, sets]
  exact distinct_map_of_injective fun _ _ _ _ same => SortedSet.singleton_injective same

theorem mem_subsets_iff_reaches (hA : A.IsDfa) :
    S ∈ A.subsets ↔ ∃ q, A.Reaches q ∧ S = .singleton q := by
  rw [mem_subsets_iff hA.wellFormed]
  constructor
  · intro h
    obtain ⟨w, hw, rfl⟩ := h
    exact ⟨_, ⟨w, hw, rfl⟩, hA.statesAfter_eq hw⟩
  · intro h
    obtain ⟨q, ⟨w, hw, rfl⟩, rfl⟩ := h
    exact ⟨w, hw, hA.statesAfter_eq hw⟩

theorem singleton_mem_subsets (hA : A.IsDfa) (hq : A.Reaches q) : .singleton q ∈ A.subsets :=
  hA.mem_subsets_iff_reaches.2 ⟨q, hq, rfl⟩

/-! ### The subset automaton -/

/-- The subset automaton is the reachable part with its states renamed, however it is told which
numbers their sets have. -/
theorem isIsomorphism_subsetAutomaton (hA : A.IsDfa) (part : A.IsReachablePart B)
    (number : ∀ q, A.Reaches q → numbered A.subsets base (.singleton q) = f q) :
    IsIsomorphism f B (A.subsetAutomaton base) := by
  have hS : (A.subsetAutomaton base).IsDfa := isDfa_subsetAutomaton hA.wellFormed
  have reached : (A.subsetAutomaton base).AllReachable :=
    fun _ => exists_walk_subsetAutomaton hA.wellFormed
  have alphabet : (A.subsetAutomaton base).alphabet = B.alphabet := by
    rw [alphabet_subsetAutomaton, part.alphabet]
  refine part.isDfa.isIsomorphism_of_walk hS part.allReachable reached alphabet ?_ ?_ ?_
  · intro w
    rw [part.accepts_iff hA, accepts_subsetAutomaton hA.wellFormed]
  · intro q r hq hr same
    have hq := (part.mem_states_iff q).1 hq
    rw [← number q hq, ← number r ((part.mem_states_iff r).1 hr)] at same
    exact SortedSet.singleton_injective (eq_of_numbered_eq (hA.singleton_mem_subsets hq) same)
  · intro w hw
    have spelt : A.Over w := part.over_iff.1 hw
    rw [walk_subsetAutomaton hA.wellFormed spelt, hA.statesAfter_eq spelt, part.walk_eq spelt]
    exact number _ ⟨w, spelt, rfl⟩

/-- The one state of the subset automaton that is named after a state is that of its set. -/
theorem get?_names_subsetAutomaton_iff (hA : A.IsDfa) (hq : A.Reaches q) :
    (A.subsetAutomaton base).names.get? p = some (bracedText [q]) ↔
      p = numbered A.subsets base (.singleton q) := by
  have listed := hA.singleton_mem_subsets hq
  have name : subsetName (.singleton q) = bracedText [q] := rfl
  constructor
  · intro named
    obtain ⟨S, _, rfl, text⟩ := exists_of_get?_numberedNames named
    rw [← name] at text
    rw [subsetName_injective text]
  · intro number
    rw [number, get?_names_subsetAutomaton listed, name]

/-- No state of it stands for the empty set. -/
theorem get?_names_subsetAutomaton_ne_deadName (hA : A.IsDfa) (p : State) :
    (A.subsetAutomaton base).names.get? p ≠ some deadName := by
  intro named
  obtain ⟨S, hS, _, text⟩ := exists_of_get?_numberedNames named
  obtain ⟨q, _, rfl⟩ := hA.mem_subsets_iff_reaches.1 hS
  exact setText_ne_deadName _ text

end IsDfa

/-! ### The subset automaton of a subset automaton -/

/-- If the states ascend in the order of the texts that lead to them, the sets are discovered in the
order of the states. -/
theorem InBreadthOrder.subsets_eq (order : A.InBreadthOrder) (hA : A.IsDfa) :
    A.subsets = A.states.toList.map .singleton := by
  obtain ⟨m, hm⟩ := order
  obtain ⟨n, hn⟩ := hA.subsets_eq_map_singleton
  rw [hn (max m n) (Nat.le_max_right m n), hm (max m n) (Nat.le_max_left m n)]

/-- The sets that are discovered in a subset automaton are numbered as its states are, from another
base. -/
theorem numbered_subsets_subsetAutomaton (hA : A.WellFormed) (base' : State)
    (hq : q ∈ (A.subsetAutomaton base).states) :
    numbered (A.subsetAutomaton base).subsets base' (.singleton q) = q + (base' - base) := by
  obtain ⟨S, hS, rfl⟩ := mem_states_subsetAutomaton.1 hq
  have order : (A.subsetAutomaton base).InBreadthOrder := inBreadthOrder_subsetAutomaton hA
  have sets : (A.subsetAutomaton base).subsets
      = A.subsets.map fun S => .singleton (numbered A.subsets base S) := by
    rw [order.subsets_eq (isDfa_subsetAutomaton hA), toList_states_subsetAutomaton, List.map_map]
    rfl
  have differ : ∀ S T, S ∈ A.subsets → T ∈ A.subsets →
      SortedSet.singleton (numbered A.subsets base S) = .singleton (numbered A.subsets base T) →
        S = T := by
    intro S T hS _ same
    exact eq_of_numbered_eq hS (SortedSet.singleton_injective same)
  rw [sets, ← numbered_map differ hS, add_sub_cancel]

/-- A subset automaton, determinized once more, has a constant added to its states. -/
theorem isIsomorphism_subsetAutomaton_subsetAutomaton (hA : A.WellFormed) (base base' : State) :
    IsIsomorphism (· + (base' - base)) (A.subsetAutomaton base)
      ((A.subsetAutomaton base).subsetAutomaton base') := by
  have hS : (A.subsetAutomaton base).IsDfa := isDfa_subsetAutomaton hA
  have part := hS.isReachablePart_self fun q => exists_walk_subsetAutomaton hA
  refine hS.isIsomorphism_subsetAutomaton part fun q hq => ?_
  exact numbered_subsets_subsetAutomaton hA base' (hS.mem_states_of_reaches hq)

/-! ### Determinizing -/

/-- **Determinizing again.**  Determinizing a deterministic automaton gives its reachable part with
its states renamed: each goes to the only state that is named after it, and no state stands for the
empty set.  If the automaton is itself the result of determinizing, determinizing it adds a constant
to its states, names aside. -/
theorem determinizing_again_only_renames (hA : A.IsDfa) (i j : State) :
    ∃ P D next, A.pruned.runFrom i = (.ok P, i) ∧ A.determinize.runFrom j = (.ok D, next) ∧
      (∀ q, q ∈ P.states ↔ ∃ w, A.Path A.start w q) ∧
      (∃ f, IsIsomorphism f P D ∧
        ∀ q ∈ P.states, ∀ p, D.names.get? p = some (bracedText [q]) ↔ p = f q) ∧
      (∀ p, D.names.get? p ≠ some deadName) ∧
      ∀ (N : Automaton) (k m : State), N.WellFormed → N.determinize.runFrom k = (.ok A, m) →
        IsIsomorphism (· + (j - k)) A D ∧
          ∀ q l, D.ends (q + (j - k)) l = (A.ends q l).map (· + (j - k)) := by
  obtain ⟨P, pruned, part⟩ := hA.exists_prune
  refine ⟨P, A.subsetAutomaton j, j + A.subsets.length, ?_,
    runFrom_determinize hA.wellFormed j, ?_, ⟨fun q => numbered A.subsets j (.singleton q), ?_, ?_⟩,
    ?_, ?_⟩
  · rw [runFrom_pruned, pruned]
    rfl
  · intro q
    rw [part.mem_states_iff, ← hA.mem_reachable_iff, hA.mem_reachable_iff_path]
  · exact hA.isIsomorphism_subsetAutomaton part fun _ _ => rfl
  · intro q hq p
    exact hA.get?_names_subsetAutomaton_iff ((part.mem_states_iff q).1 hq)
  · exact hA.get?_names_subsetAutomaton_ne_deadName
  · intro N k m hN made
    rw [runFrom_determinize hN] at made
    cases made
    have shifted := isIsomorphism_subsetAutomaton_subsetAutomaton hN k j
    exact ⟨shifted, shifted.ends_eq fun _ _ => (Int.add_left_inj _).1⟩

/-- `pendulum` has a state that nothing leads to; the subset automaton of `eddy` has one for the
empty set. -/
theorem determinizing_pendulum_and_eddy_again :
    (pendulum.IsDfa ∧ ∃ (D : Automaton) (next : State) (f : State → State),
      pendulum.determinize.runFrom 20 = (.ok D, next) ∧ D.states.size = 2 ∧
      D.names.get? (f 5) = some (bracedText [5]) ∧ D.ends (f 5) (some 'a') = .singleton (f (-3))) ∧
    (eddy.subsetAutomaton 11).IsDfa ∧ eddy.WellFormed ∧
      eddy.determinize.runFrom 11 = (.ok (eddy.subsetAutomaton 11), 13) ∧
      ∃ D next, (eddy.subsetAutomaton 11).determinize.runFrom 30 = (.ok D, next) ∧
        D.start = 30 ∧ D.accepting = (eddy.subsetAutomaton 11).accepting.map (· + 19) ∧
        ∀ p, D.names.get? p ≠ some deadName := by
  have hP : pendulum.IsDfa := ⟨wellFormed_pendulum, rfl⟩
  have hE : (eddy.subsetAutomaton 11).IsDfa := isDfa_subsetAutomaton wellFormed_eddy
  have made : eddy.determinize.runFrom 11 = (.ok (eddy.subsetAutomaton 11), 13) := by
    rw [runFrom_determinize wellFormed_eddy, show eddy.subsets.length = 2 from by decide]
    rfl
  refine ⟨⟨hP, ?_⟩, hE, wellFormed_eddy, made, ?_⟩
  · obtain ⟨P, D, next, pruned, run, _, ⟨f, renamed, named⟩, _, _⟩ :=
      determinizing_again_only_renames hP 8 20
    have shape : (pendulum.pruned.runFrom 8).1.toOption
        = some (pendulum.restrict pendulum.reachable) := by
      decide
    rw [pruned] at shape
    obtain rfl : P = pendulum.restrict pendulum.reachable := Option.some.inj shape
    refine ⟨D, next, f, run, ?_, (named 5 (by decide) _).2 rfl, ?_⟩
    · rw [renamed.size_eq]
      decide
    · rw [renamed.ends 5 (by decide)]
      rfl
  · obtain ⟨P, D, next, _, run, _, _, alive, again⟩ := determinizing_again_only_renames hE 8 30
    obtain ⟨shifted, _⟩ := again eddy 11 13 wellFormed_eddy made
    exact ⟨D, next, run, shifted.start, shifted.accepting, alive⟩

end Automaton

end PatternAutomata
