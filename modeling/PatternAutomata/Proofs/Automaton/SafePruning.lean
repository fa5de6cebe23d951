import PatternAutomata.Proofs.Automaton.Composition
import PatternAutomata.Proofs.Automaton.Exactness
import PatternAutomata.Proofs.Automaton.Minimality
import PatternAutomata.Proofs.Automaton.Pruning

/-!
# Pruning is safe

Pruning looks for states along symbols only and drops transitions by their source only, also on
nondeterministic automata.  It fails exactly if an ε transition leads out of the kept states.  If it
does not fail, no path that leaves the start state is lost, and so no text.

* `exists_prune_eq_error` — what is reported if an ε transition leads out of the kept states;
* `IsPruning.path_iff`, `IsPruning.accepts_iff` — the pruned automaton has the same paths from its
  states, and accepts the same texts;
* `IsPruning.prune_eq` — pruning it again does not change it;
* `pruning_is_safe` — all this about pruning any well-formed automaton.
-/

namespace PatternAutomata

namespace Automaton

variable {A B : Automaton} {q r : State} {l : Label} {w : Text}

/-! ### When there is no pruned automaton -/

theorem not_confined_iff :
    ¬ A.Confined ↔ ∃ q ∈ A.reachable, ∃ r ∈ A.ends q none, r ∉ A.reachable := by
  unfold Confined
  simp only [Classical.not_forall, SortedSet.not_subset_iff, exists_prop]

/-- An entry of the restricted table is reported if it leads out of the kept states.  Then it is one
for ε. -/
theorem of_entryViolation?_restrict (hA : A.WellFormed) {v : Violation} {ends : SortedSet State}
    (mem : (⟨q, l⟩, ends) ∈ (A.restrict A.reachable).transitions.entries)
    (bad : (A.restrict A.reachable).entryViolation? A.reachable.span? (⟨q, l⟩, ends) = some v) :
    q ∈ A.reachable ∧ (∃ r ∈ A.ends q none, r ∉ A.reachable) ∧
      v = .unknownState q none (A.ends q none) := by
  obtain ⟨own, selected⟩ := List.mem_filter.1 mem
  have hq : q ∈ A.reachable := of_decide_eq_true selected
  have entry := hA.fitsEntry q l ends own
  obtain rfl := ends_eq_of_mem_entries own
  have known : (A.restrict A.reachable).knowsStates A.reachable.span? q (A.ends q l) = true ↔
      A.ends q l ⊆ A.reachable :=
    (knowsStates_iff (A := A.restrict A.reachable)).trans (and_iff_right hq)
  cases l with
  | none =>
    rw [entryViolation?] at bad
    by_cases inside : A.ends q none ⊆ A.reachable
    · rw [if_pos (known.2 inside)] at bad
      cases bad
    · rw [if_neg fun h => inside (known.1 h)] at bad
      cases bad
      exact ⟨hq, SortedSet.not_subset_iff.1 inside, rfl⟩
  | some c =>
    have inside : A.ends q (some c) ⊆ A.reachable := fun r hr => mem_reachable_of_mem_ends hA hq hr
    have symbol : c ∈ (A.restrict A.reachable).alphabet := entry.symbol_mem c rfl
    simp only [entryViolation?, if_pos (known.2 inside), if_pos symbol] at bad
    cases bad

/-- What is wrong with the entries is reported if nothing is wrong with the start state and the
accepting states. -/
theorem violation?_eq_of_entries {v : Violation} (start : A.start ∈ A.states)
    (accepting : A.accepting ⊆ A.states)
    (entries : A.transitions.entries.findSome? (A.entryViolation? A.states.span?) = some v) :
    A.violation? = some v := by
  rw [violation?, startViolation?_eq_none_iff.2 start, acceptingViolation?_eq_none_iff.2 accepting,
    entries]
  rfl

/-- If an ε transition leads out of the kept states, pruning reports an entry for ε that does. -/
theorem exists_prune_eq_error (hA : A.WellFormed) (h : ¬ A.Confined) :
    ∃ q ∈ A.reachable, (∃ r ∈ A.ends q none, r ∉ A.reachable) ∧
      A.prune = .error (.unknownState q none (A.ends q none)) := by
  obtain ⟨q, hq, r, hr, outside⟩ := not_confined_iff.1 h
  have dropped : A.reachable ≠ A.states := by
    intro all
    rw [all] at outside
    exact outside (hA.mem_states_of_mem_ends hr)
  have listed : (⟨q, none⟩, A.ends q none) ∈ (A.restrict A.reachable).transitions.entries :=
    List.mem_filter.2 ⟨mem_entries_of_mem_ends hr, decide_eq_true hq⟩
  have reported : (A.restrict A.reachable).transitions.entries.findSome?
      ((A.restrict A.reachable).entryViolation? A.reachable.span?) ≠ none := by
    intro fits
    have entry := List.findSome?_eq_none_iff.1 fits _ listed
    have inside : A.ends q none ⊆ A.reachable := (entryViolation?_eq_none_iff.1 entry).ends_subset
    exact outside (inside r hr)
  obtain ⟨v, hv⟩ := Option.ne_none_iff_exists'.1 reported
  obtain ⟨⟨⟨p, l⟩, ends⟩, mem, bad⟩ := List.exists_of_findSome?_eq_some hv
  obtain ⟨hp, leads, rfl⟩ := of_entryViolation?_restrict hA mem bad
  refine ⟨p, hp, leads, ?_⟩
  have violation : (A.restrict A.reachable).violation? =
      some (.unknownState p none (A.ends p none)) :=
    violation?_eq_of_entries (start_mem_reachable hA) (fun q hq => (SortedSet.mem_inter.1 hq).2) hv
  rw [prune, if_neg dropped, assemble, compact_restrict hA, violation]

/-! ### What the pruned automaton does -/

namespace IsPruning

/-- The pruned automaton has no transitions of its own. -/
theorem mem_ends (h : A.IsPruning B) (hr : r ∈ B.ends q l) : r ∈ A.ends q l := by
  have source : q ∈ B.states := (h.wellFormed.fitsEntry_of_mem_ends hr).source_mem
  rw [h.states] at source
  rwa [h.ends_eq source] at hr

/-- From its states, the pruned automaton has the paths of the given one. -/
theorem path_iff (h : A.IsPruning B) (hq : q ∈ A.reachable) : B.Path q w r ↔ A.Path q w r := by
  constructor
  · intro path
    exact path.mono fun _ _ _ hr => h.mem_ends hr
  · intro path
    refine path.confined h.wellFormed (h.states ▸ hq) fun p l s hp hs => ?_
    rw [h.states] at hp
    rwa [h.ends_eq hp]

theorem direct (h : A.IsPruning B) (path : A.Direct q w r) (hq : q ∈ A.reachable) :
    B.Direct q w r := by
  induction path with
  | refl q => exact .refl q
  | read hr _ ih =>
    rw [← h.ends_eq hq] at hr
    refine .read hr (ih ?_)
    rw [← h.states]
    exact h.wellFormed.mem_states_of_mem_ends hr

theorem accepts_iff (h : A.IsPruning B) (hA : A.WellFormed) : B.Accepts w ↔ A.Accepts w := by
  have start : A.start ∈ A.reachable := start_mem_reachable hA
  constructor
  · intro accepted
    obtain ⟨q, hq, path⟩ := accepted
    rw [h.accepting, SortedSet.mem_inter] at hq
    rw [h.start, h.path_iff start] at path
    exact ⟨q, hq.1, path⟩
  · intro accepted
    obtain ⟨q, hq, path⟩ := accepted
    rw [← h.path_iff start, ← h.start] at path
    have kept : q ∈ B.states := path.state_mem h.wellFormed h.wellFormed.start_mem
    refine ⟨q, ?_, path⟩
    rw [h.accepting, SortedSet.mem_inter, ← h.states]
    exact ⟨hq, kept⟩

/-- All states of the pruned automaton are reached along symbols. -/
theorem reachable_eq (h : A.IsPruning B) (hA : A.WellFormed) : B.reachable = B.states := by
  apply SortedSet.ext
  intro q
  constructor
  · exact reachable_subset h.wellFormed q
  · intro hq
    rw [h.states] at hq
    obtain ⟨w, path⟩ := (mem_reachable_iff hA).1 hq
    refine (mem_reachable_iff h.wellFormed).2 ⟨w, ?_⟩
    rw [h.start]
    exact h.direct path (start_mem_reachable hA)

/-- Pruning it again does not change it. -/
theorem prune_eq (h : A.IsPruning B) (hA : A.WellFormed) : B.prune = .ok B := by
  rw [prune, if_pos (h.reachable_eq hA)]

end IsPruning

/-! ### Pruning -/

theorem Confined.exists_runFrom_pruned (h : A.Confined) (hA : A.WellFormed) (counter : State) :
    ∃ B, A.pruned.runFrom counter = (.ok B, counter) ∧ A.IsPruning B := by
  obtain ⟨B, pruned, part⟩ := h.exists_prune hA
  refine ⟨B, ?_, part⟩
  rw [runFrom_pruned, pruned]
  rfl

theorem exists_runFrom_pruned_eq_error (hA : A.WellFormed) (h : ¬ A.Confined) (counter : State) :
    ∃ q ∈ A.reachable, (∃ r ∈ A.ends q none, r ∉ A.reachable) ∧
      A.pruned.runFrom counter =
        (.error (.violation (.unknownState q none (A.ends q none))), counter) := by
  obtain ⟨q, hq, leads, pruned⟩ := exists_prune_eq_error hA h
  refine ⟨q, hq, leads, ?_⟩
  rw [runFrom_pruned, pruned]
  rfl

/-- **Pruning.**  The kept states of a well-formed automaton of either kind are those that paths
along symbols lead to.  Pruning fails exactly if an ε transition leads from one of them to another
state, and reports such a transition then.  Otherwise it gives the well-formed automaton on the kept
states, with the same alphabet, kind and start state, and with all transitions that leave them; it
accepts the same texts, and pruning it again does not change it.  Pruning a deterministic automaton
never fails, and keeps the states that texts lead to. -/
theorem pruning_is_safe (hA : A.WellFormed) (counter : State) :
    (∀ q, q ∈ A.reachable ↔ ∃ w, A.Direct A.start w q) ∧
    ((∃ v, A.pruned.runFrom counter = (.error (.violation v), counter)) ↔
      ∃ q ∈ A.reachable, ∃ r ∈ A.ends q none, r ∉ A.reachable) ∧
    (∀ fault next, A.pruned.runFrom counter = (.error fault, next) →
      ∃ q ∈ A.reachable, (∃ r ∈ A.ends q none, r ∉ A.reachable) ∧
        fault = .violation (.unknownState q none (A.ends q none))) ∧
    ((¬ ∃ q ∈ A.reachable, ∃ r ∈ A.ends q none, r ∉ A.reachable) →
      ∃ B, A.pruned.runFrom counter = (.ok B, counter) ∧ A.IsPruning B ∧
        (∀ w, B.accepts w = A.accepts w) ∧ B.pruned.runFrom counter = (.ok B, counter)) ∧
    (A.kind = .deterministic →
      (∃ B, A.pruned.runFrom counter = (.ok B, counter)) ∧
      ∀ q, q ∈ A.reachable ↔ ∃ w, A.Path A.start w q) := by
  refine ⟨fun q => mem_reachable_iff hA, ?_, ?_, ?_, ?_⟩
  · rw [← not_confined_iff]
    constructor
    · intro failed h
      obtain ⟨v, failed⟩ := failed
      obtain ⟨B, run, _⟩ := h.exists_runFrom_pruned hA counter
      rw [run] at failed
      cases failed
    · intro h
      obtain ⟨q, _, _, run⟩ := exists_runFrom_pruned_eq_error hA h counter
      exact ⟨_, run⟩
  · intro fault next failed
    by_cases h : A.Confined
    · obtain ⟨B, run, _⟩ := h.exists_runFrom_pruned hA counter
      rw [run] at failed
      cases failed
    · obtain ⟨q, hq, leads, run⟩ := exists_runFrom_pruned_eq_error hA h counter
      rw [run] at failed
      cases failed
      exact ⟨q, hq, leads, rfl⟩
  · rw [← not_confined_iff, Classical.not_not]
    intro h
    obtain ⟨B, run, part⟩ := h.exists_runFrom_pruned hA counter
    refine ⟨B, run, part, ?_, ?_⟩
    · intro w
      rw [Bool.eq_iff_iff, Automaton.accepts_iff part.wellFormed, Automaton.accepts_iff hA]
      exact part.accepts_iff hA
    · rw [runFrom_pruned, part.prune_eq hA]
      rfl
  · intro kind
    have hD : A.IsDfa := ⟨hA, kind⟩
    obtain ⟨B, run, _⟩ := hD.confined.exists_runFrom_pruned hA counter
    exact ⟨⟨B, run⟩, fun q => hD.mem_reachable_iff_path⟩

/-- An ε transition between two states that symbols lead to, and a state that nothing leads to, from
which a symbol and ε lead to them. -/
def backwater : Automaton :=
  compact
    { alphabet := .ofList ['a', 'b']
      states := .ofList [-3, 1, 4]
      transitions := .ofList
        [(⟨-3, none⟩, .singleton 4), (⟨1, some 'a'⟩, .singleton 4), (⟨4, none⟩, .singleton 1),
          (⟨-3, some 'a'⟩, .singleton 1), (⟨4, some 'b'⟩, .ofList [1, 4])]
      start := 1
      accepting := .ofList [-3, 4] }

theorem wellFormed_backwater : backwater.WellFormed := wellFormed_compact (by decide)

/-- Pruning fails on `eddy`, whose start state has only an ε transition, and does not on `backwater`
and `pendulum`. -/
theorem pruning_eddy_backwater_pendulum :
    (eddy.WellFormed ∧ eddy.pruned.runFrom 11 =
      (.error (.violation (.unknownState (-2) none (.singleton 3))), 11)) ∧
    (backwater.WellFormed ∧ ∃ B, backwater.pruned.runFrom 5 = (.ok B, 5) ∧
      B.states = .ofList [1, 4] ∧ B.transitions.entries.length = 3 ∧ B.accepting = .singleton 4 ∧
      (∀ w, B.accepts w = backwater.accepts w) ∧ B.pruned.runFrom 5 = (.ok B, 5)) ∧
    (pendulum.WellFormed ∧ pendulum.kind = .deterministic ∧
      (∃ B, pendulum.pruned.runFrom (-4) = (.ok B, -4)) ∧ ¬ ∃ w, pendulum.Path (-3) w 7) := by
  refine ⟨⟨wellFormed_eddy, ?_⟩, ⟨wellFormed_backwater, ?_⟩, wellFormed_pendulum, rfl, ?_⟩
  · obtain ⟨_, fails, report, _, _⟩ := pruning_is_safe wellFormed_eddy 11
    obtain ⟨v, run⟩ := fails.2 ⟨-2, by decide, 3, by decide, by decide⟩
    obtain ⟨q, hq, _, reported⟩ := report _ _ run
    have here : eddy.reachable = .singleton (-2) := by decide
    rw [here, SortedSet.mem_singleton] at hq
    rw [run, reported, hq]
    rfl
  · obtain ⟨_, _, _, succeeds, _⟩ := pruning_is_safe wellFormed_backwater 5
    obtain ⟨B, run, part, accepts, again⟩ := succeeds (by decide)
    refine ⟨B, run, ?_, ?_, ?_, accepts, again⟩
    · rw [part.states]
      decide
    · rw [part.transitions]
      decide
    · rw [part.accepting]
      decide
  · obtain ⟨_, _, _, _, dfa⟩ := pruning_is_safe wellFormed_pendulum (-4)
    obtain ⟨succeeds, reached⟩ := dfa rfl
    exact ⟨succeeds, fun h => absurd ((reached 7).2 h) (by decide)⟩

end Automaton

end PatternAutomata
