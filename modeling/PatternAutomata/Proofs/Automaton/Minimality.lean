import PatternAutomata.Proofs.Automaton.Determinization
import PatternAutomata.Proofs.Automaton.Pruning
import PatternAutomata.Proofs.Automaton.Quotient

/-!
# Minimizing gives the fewest states

A deterministic automaton all of whose states are reached, and told apart by texts, has no more
states than any deterministic automaton that accepts the same texts: states that different texts
lead to in the one cannot be one state of the other.  Minimizing gives such an automaton.

* `Reduced` — every state is reached and no two are equivalent;
* `Reduced.size_le` — such an automaton has the fewest states;
* `IsDfa.exists_runFrom_minimize`, `exists_runFrom_ensureDeterministic`, `runFrom_minimize_of_dfa` —
  the stages of minimizing;
* `IsReachablePart.reduced_quotientBy` — its result is reduced.
-/

namespace PatternAutomata

namespace Automaton

variable {A B D M : Automaton} {q r base : State} {w : Text}

/-! ### Reduced automata -/

/-- A deterministic automaton whose states are all reached and all told apart by texts. -/
structure Reduced (A : Automaton) : Prop where
  isDfa : A.IsDfa
  allReachable : A.AllReachable
  eq_of_equivalent : ∀ q r, q ∈ A.states → r ∈ A.states → A.Equivalent q r → q = r

/-- In an automaton that accepts the same texts, texts that lead to one state lead to equivalent
states. -/
theorem equivalent_of_walk_eq (hM : M.IsDfa) (hD : D.IsDfa) (alphabet : M.alphabet ⊆ D.alphabet)
    (same : ∀ w, M.Accepts w ↔ D.Accepts w) {u v : Text} (hu : M.Over u) (hv : M.Over v)
    (meet : D.walk D.start u = D.walk D.start v) :
    M.Equivalent (M.walk M.start u) (M.walk M.start v) := by
  have within : ∀ x, M.Over x → D.Over x := fun x hx c hc => alphabet c (hx c hc)
  have accepting : ∀ x w, M.Over x → M.Over w →
      (M.walk (M.walk M.start x) w ∈ M.accepting ↔
        D.walk (D.walk D.start x) w ∈ D.accepting) := by
    intro x w hx hw
    have texts := same (x ++ w)
    rw [hM.accepts_iff_walk, hD.accepts_iff_walk, walk_append, walk_append] at texts
    have overM : M.Over (x ++ w) := over_append.2 ⟨hx, hw⟩
    simpa only [overM, within _ overM, true_and] using texts
  intro w hw
  rw [accepting u w hu hw, accepting v w hv hw, meet]

/-- A reduced automaton has the fewest states. -/
theorem Reduced.size_le (hM : M.Reduced) (hD : D.IsDfa) (alphabet : M.alphabet ⊆ D.alphabet)
    (same : ∀ w, M.Accepts w ↔ D.Accepts w) : M.states.size ≤ D.states.size := by
  have reached : ∀ m, ∃ w, m ∈ M.states → M.Over w ∧ M.walk M.start w = m := by
    intro m
    by_cases hm : m ∈ M.states
    · obtain ⟨w, hw⟩ := hM.allReachable m hm
      exact ⟨w, fun _ => hw⟩
    · exact ⟨[], fun h => absurd h hm⟩
  choose text htext using reached
  -- each state goes to where a text that leads to it leads in the other automaton
  have injective : ∀ m ∈ M.states.toList, ∀ n ∈ M.states.toList,
      D.walk D.start (text m) = D.walk D.start (text n) → m = n := by
    intro m hm n hn meet
    obtain ⟨overM, walkM⟩ := htext m hm
    obtain ⟨overN, walkN⟩ := htext n hn
    have equivalent := equivalent_of_walk_eq hM.isDfa hD alphabet same overM overN meet
    rw [walkM, walkN] at equivalent
    exact hM.eq_of_equivalent m n hm hn equivalent
  have nodup : (M.states.toList.map fun m => D.walk D.start (text m)).Nodup :=
    M.states.nodup_toList.map_on injective
  have within : (M.states.toList.map fun m => D.walk D.start (text m)) ⊆ D.states.toList := by
    intro q hq
    obtain ⟨m, hm, rfl⟩ := List.mem_map.1 hq
    exact hD.walk_mem hD.wellFormed.start_mem fun c hc => alphabet c ((htext m hm).1 c hc)
  have bound := nodup.length_le_of_subset within
  rw [List.length_map] at bound
  exact bound

/-! ### The stages of minimizing -/

theorem IsDfa.runFrom_ensureDeterministic (hA : A.IsDfa) (counter : State) :
    A.ensureDeterministic.runFrom counter = (.ok A, counter) := by
  unfold ensureDeterministic
  rw [if_pos hA.isDeterministic]
  rfl

theorem runFrom_ensureDeterministic_of_nondeterministic (hA : A.WellFormed)
    (kind : A.kind = .nondeterministic) (counter : State) :
    A.ensureDeterministic.runFrom counter =
      (.ok (A.subsetAutomaton counter), counter + A.subsets.length) := by
  have not_deterministic : ¬ A.isDeterministic = true := by
    simp [isDeterministic, kind]
  unfold ensureDeterministic
  rw [if_neg not_deterministic]
  exact runFrom_determinize hA counter

/-- Minimizing goes on with an equivalent deterministic automaton.  If that had to be made, its
states ascend in the order of the texts that lead to them. -/
theorem exists_runFrom_ensureDeterministic (hA : A.WellFormed) (counter : State) :
    ∃ D next, A.ensureDeterministic.runFrom counter = (.ok D, next) ∧ D.IsDfa ∧
      D.alphabet = A.alphabet ∧ (∀ w, D.Accepts w ↔ A.Accepts w) ∧
      (A.kind = .nondeterministic → D.InBreadthOrder) := by
  cases kind : A.kind with
  | deterministic =>
    have hD : A.IsDfa := ⟨hA, kind⟩
    exact ⟨A, counter, hD.runFrom_ensureDeterministic counter, hD, rfl, fun _ => Iff.rfl, nofun⟩
  | nondeterministic =>
    exact ⟨_, _, runFrom_ensureDeterministic_of_nondeterministic hA kind counter,
      isDfa_subsetAutomaton hA, rfl, accepts_subsetAutomaton hA,
      fun _ => inBreadthOrder_subsetAutomaton hA⟩

/-- Pruning takes no states. -/
theorem runFrom_pruned (A : Automaton) (counter : State) :
    A.pruned.runFrom counter = (A.prune.mapError .violation, counter) := rfl

/-- The reachable part is divided by its refinement; each block takes one fresh state. -/
theorem IsDfa.exists_runFrom_minimize (hD : D.IsDfa) :
    ∃ B, D.IsReachablePart B ∧ ∀ counter,
      D.minimize.runFrom counter = (.ok (B.quotientBy B.refine counter),
        counter + B.refine.length) := by
  obtain ⟨B, pruned, part⟩ := hD.exists_prune
  refine ⟨B, part, ?_⟩
  intro counter
  have fits : (B.quotient B.refine counter).Fits :=
    (isCongruence_refine part.isDfa).fits_quotient part.isDfa
  have assembled := fits.runFrom_assembled (counter + B.refine.length)
  unfold minimize
  rw [Fresh.runFrom_bind, hD.runFrom_ensureDeterministic]
  simp only [Fresh.runFrom_bind, runFrom_pruned, pruned, Except.mapError, Fresh.runFrom_reserve]
  exact assembled

/-- Minimizing is minimizing the deterministic automaton that it makes first. -/
theorem runFrom_minimize_of_dfa {counter next : State}
    (made : A.ensureDeterministic.runFrom counter = (.ok D, next)) (hD : D.IsDfa) :
    A.minimize.runFrom counter = D.minimize.runFrom next := by
  unfold minimize
  rw [Fresh.runFrom_bind, made, Fresh.runFrom_bind, hD.runFrom_ensureDeterministic]

/-- Dividing a deterministic automaton with all states reached by its refinement leaves no
equivalent states. -/
theorem IsReachablePart.reduced_quotientBy (h : D.IsReachablePart B) :
    (B.quotientBy B.refine base).Reduced := by
  have hB := h.isDfa
  have congruence := isCongruence_refine hB
  refine ⟨congruence.isDfa_quotientBy hB, ?_, ?_⟩
  · intro m hm
    obtain ⟨q, hq, rfl⟩ := congruence.isPartition.mem_states_quotientBy.1 hm
    obtain ⟨w, hw, rfl⟩ := h.allReachable q hq
    exact ⟨w, hw, congruence.walk_quotientBy hB hB.wellFormed.start_mem hw⟩
  · intro m n hm hn equivalent
    obtain ⟨q, hq, rfl⟩ := congruence.isPartition.mem_states_quotientBy.1 hm
    obtain ⟨r, hr, rfl⟩ := congruence.isPartition.mem_states_quotientBy.1 hn
    rw [congruence.isPartition.blockNumber_eq_iff hq, together_refine_iff hB hq hr]
    intro w hw
    have told := equivalent w hw
    rwa [congruence.walk_quotientBy hB hq hw, congruence.walk_quotientBy hB hr hw,
      congruence.mem_accepting_quotientBy (hB.walk_mem hq hw),
      congruence.mem_accepting_quotientBy (hB.walk_mem hr hw)] at told

theorem IsReachablePart.accepts_quotientBy (h : D.IsReachablePart B) (hD : D.IsDfa) (w : Text) :
    (B.quotientBy B.refine base).Accepts w ↔ D.Accepts w := by
  rw [(isCongruence_refine h.isDfa).accepts_quotientBy h.isDfa, h.accepts_iff hD]

/-- Minimizing a well-formed automaton gives a reduced one with the same alphabet that accepts the
same texts. -/
theorem exists_runFrom_minimize (hA : A.WellFormed) (counter : State) :
    ∃ M next, A.minimize.runFrom counter = (.ok M, next) ∧ M.Reduced ∧
      M.alphabet = A.alphabet ∧ ∀ w, M.Accepts w ↔ A.Accepts w := by
  obtain ⟨D, next, made, hD, alphabet, accepts, _⟩ := exists_runFrom_ensureDeterministic hA counter
  obtain ⟨B, part, minimized⟩ := hD.exists_runFrom_minimize
  have run := (runFrom_minimize_of_dfa made hD).trans (minimized next)
  refine ⟨_, _, run, part.reduced_quotientBy, ?_, ?_⟩
  · exact part.alphabet.trans alphabet
  · intro w
    rw [part.accepts_quotientBy hD, accepts]

/-- **Minimality.**  Minimizing a well-formed automaton of either kind gives a deterministic
automaton over its alphabet that accepts the same texts, and no deterministic automaton that
accepts these texts, over at least these symbols, has fewer states. -/
theorem minimize_has_fewest_states (hA : A.WellFormed) (counter : State) :
    ∃ M next, A.minimize.runFrom counter = (.ok M, next) ∧
      M.WellFormed ∧ M.kind = .deterministic ∧ M.alphabet = A.alphabet ∧
      (∀ w, M.accepts w = A.accepts w) ∧
      ∀ D : Automaton, D.WellFormed → D.kind = .deterministic → A.alphabet ⊆ D.alphabet →
        (∀ w, D.accepts w = A.accepts w) → M.stateCount ≤ D.stateCount := by
  obtain ⟨M, next, run, reduced, alphabet, accepts⟩ := exists_runFrom_minimize hA counter
  have hM := reduced.isDfa
  refine ⟨M, next, run, hM.wellFormed, hM.kind, alphabet, ?_, ?_⟩
  · intro w
    rw [Bool.eq_iff_iff, accepts_iff hM.wellFormed, accepts_iff hA]
    exact accepts w
  · intro D hD kind larger same
    apply reduced.size_le ⟨hD, kind⟩
    · rw [alphabet]
      exact larger
    · intro w
      rw [accepts, ← accepts_iff hA, ← accepts_iff hD, same w]

/-- Two accepting states that lead to each other, and a state that nothing leads to. -/
def pendulum : Automaton :=
  compact
    { alphabet := .singleton 'a'
      states := .ofList [5, -3, 7]
      transitions := .ofList
        [(⟨-3, some 'a'⟩, .singleton 5), (⟨5, some 'a'⟩, .singleton (-3)),
          (⟨7, some 'a'⟩, .singleton 7)]
      start := -3
      accepting := .ofList [5, -3]
      kind := .deterministic }

theorem wellFormed_pendulum : pendulum.WellFormed := wellFormed_compact (by decide)

theorem minimize_pendulum_has_fewest_states :
    pendulum.WellFormed ∧ ∃ M next, pendulum.minimize.runFrom (-4) = (.ok M, next) ∧
      M.WellFormed ∧ M.kind = .deterministic ∧ M.alphabet = pendulum.alphabet ∧
      (∀ w, M.accepts w = pendulum.accepts w) ∧ M.stateCount ≤ pendulum.stateCount := by
  refine ⟨wellFormed_pendulum, ?_⟩
  obtain ⟨M, next, run, wellFormed, kind, alphabet, accepts, fewest⟩ :=
    minimize_has_fewest_states wellFormed_pendulum (-4)
  have least := fewest pendulum wellFormed_pendulum rfl (fun _ h => h) fun _ => rfl
  exact ⟨M, next, run, wellFormed, kind, alphabet, accepts, least⟩

end Automaton

end PatternAutomata
