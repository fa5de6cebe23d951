import PatternAutomata.Proofs.Automaton.Minimality

/-!
# Reduced automata that accept the same texts are isomorphic

Two reduced automata over one alphabet that accept the same texts differ in the identity of their
states alone: a state of the one goes with the state of the other to which the same texts lead.

* `IsIsomorphism` — one automaton is the other with its states renamed, names aside;
* `isIsomorphism_id`, `IsIsomorphism.size_eq` — an automaton is isomorphic to itself, and isomorphic
  automata have the same number of states;
* `IsIsomorphism.ends_eq` — the transitions, whatever their source;
* `IsDfa.isIsomorphism_of_walk` — so it is if all texts lead to states that go together;
* `Reduced.exists_isIsomorphism` — and there always is such a renaming.
-/

namespace PatternAutomata

namespace Automaton

variable {M N : Automaton} {q r : State} {c : Symbol} {u v w : Text} {f : State → State}

/-- Two well-formed automata, of which `N` is `M` with its states renamed by `f`, the names of
states aside. -/
structure IsIsomorphism (f : State → State) (M N : Automaton) : Prop where
  source_wellFormed : M.WellFormed
  target_wellFormed : N.WellFormed
  injective : ∀ q r, q ∈ M.states → r ∈ M.states → f q = f r → q = r
  alphabet : N.alphabet = M.alphabet
  kind : N.kind = M.kind
  states : N.states = M.states.map f
  start : N.start = f M.start
  accepting : N.accepting = M.accepting.map f
  ends : ∀ q, q ∈ M.states → ∀ l, N.ends (f q) l = (M.ends q l).map f

/-- An automaton is isomorphic to itself. -/
theorem isIsomorphism_id (hM : M.WellFormed) : IsIsomorphism id M M where
  source_wellFormed := hM
  target_wellFormed := hM
  injective := fun _ _ _ _ same => same
  alphabet := rfl
  kind := rfl
  states := M.states.map_id.symm
  start := rfl
  accepting := M.accepting.map_id.symm
  ends := fun q _ l => (M.ends q l).map_id.symm

theorem IsIsomorphism.size_eq (h : IsIsomorphism f M N) : N.states.size = M.states.size := by
  rw [h.states, SortedSet.size_map h.injective]

/-- No other state has transitions. -/
theorem IsIsomorphism.ends_eq (h : IsIsomorphism f M N) (injective : ∀ q r, f q = f r → q = r)
    (q : State) (l : Label) : N.ends (f q) l = (M.ends q l).map f := by
  by_cases hq : q ∈ M.states
  · exact h.ends q hq l
  · have image : f q ∉ N.states := by
      rw [h.states, SortedSet.mem_map]
      intro mem
      obtain ⟨p, hp, same⟩ := mem
      exact hq (injective p q same ▸ hp)
    rw [h.source_wellFormed.ends_eq_empty fun mem => absurd mem hq,
      h.target_wellFormed.ends_eq_empty fun mem => absurd mem image]
    rfl

/-- Deterministic automata over one alphabet that accept the same texts do so after texts that lead
to states that go together. -/
theorem IsDfa.walk_mem_accepting_iff (hM : M.IsDfa) (hN : N.IsDfa)
    (alphabet : N.alphabet = M.alphabet)
    (same : ∀ w, M.Accepts w ↔ N.Accepts w) (hw : M.Over w) :
    M.walk M.start w ∈ M.accepting ↔ N.walk N.start w ∈ N.accepting := by
  have texts := same w
  rw [hM.accepts_iff_walk, hN.accepts_iff_walk] at texts
  have covered : N.Over w := (over_iff_of_alphabet alphabet).2 hw
  simpa only [hw, covered, true_and] using texts

/-- If texts lead in the second automaton to the renamed state to which they lead in the first, the
second is the renamed first. -/
theorem IsDfa.isIsomorphism_of_walk (hM : M.IsDfa) (hN : N.IsDfa)
    (reachedM : M.AllReachable) (reachedN : N.AllReachable)
    (alphabet : N.alphabet = M.alphabet) (same : ∀ w, M.Accepts w ↔ N.Accepts w)
    (injective : ∀ q r, q ∈ M.states → r ∈ M.states → f q = f r → q = r)
    (walk : ∀ w, M.Over w → N.walk N.start w = f (M.walk M.start w)) : IsIsomorphism f M N := by
  have covered : ∀ w, N.Over w ↔ M.Over w := fun w => over_iff_of_alphabet alphabet
  have states : ∀ q, q ∈ N.states ↔ ∃ p, p ∈ M.states ∧ f p = q := by
    intro q
    constructor
    · intro hq
      obtain ⟨w, hw, rfl⟩ := reachedN q hq
      have hw := (covered w).1 hw
      exact ⟨_, hM.walk_mem hM.wellFormed.start_mem hw, (walk w hw).symm⟩
    · intro h
      obtain ⟨p, hp, rfl⟩ := h
      obtain ⟨w, hw, rfl⟩ := reachedM p hp
      rw [← walk w hw]
      exact hN.walk_mem hN.wellFormed.start_mem ((covered w).2 hw)
  have accepting : ∀ p, p ∈ M.states → (f p ∈ N.accepting ↔ p ∈ M.accepting) := by
    intro p hp
    obtain ⟨w, hw, rfl⟩ := reachedM p hp
    rw [← walk w hw]
    exact (hM.walk_mem_accepting_iff hN alphabet same hw).symm
  have advance : ∀ p c, p ∈ M.states → c ∈ M.alphabet → N.advance (f p) c = f (M.advance p c) := by
    intro p c hp hc
    obtain ⟨w, hw, rfl⟩ := reachedM p hp
    have hwc : M.Over (w ++ [c]) := over_append.2 ⟨hw, over_cons.2 ⟨hc, over_nil M⟩⟩
    rw [← walk w hw, ← walk_snoc, ← walk_snoc, walk _ hwc]
  refine ⟨hM.wellFormed, hN.wellFormed, injective, alphabet, ?_, ?_, ?_, ?_, ?_⟩
  · rw [hN.kind, hM.kind]
  · apply SortedSet.ext
    intro q
    rw [states, SortedSet.mem_map]
  · exact walk [] (over_nil M)
  · apply SortedSet.ext
    intro q
    rw [SortedSet.mem_map]
    constructor
    · intro hq
      obtain ⟨p, hp, rfl⟩ := (states q).1 (hN.wellFormed.accepting_subset q hq)
      exact ⟨p, (accepting p hp).1 hq, rfl⟩
    · intro h
      obtain ⟨p, hp, rfl⟩ := h
      exact (accepting p (hM.wellFormed.accepting_subset p hp)).2 hp
  · intro p hp l
    have hfp : f p ∈ N.states := (states _).2 ⟨p, hp, rfl⟩
    cases l with
    | none =>
      rw [hN.ends_none hfp, hM.ends_none hp]
      rfl
    | some c =>
      by_cases hc : c ∈ M.alphabet
      · rw [hM.ends_some hp hc, hN.ends_some hfp (alphabet ▸ hc), advance p c hp hc]
        rfl
      · have image : c ∉ N.alphabet := alphabet ▸ hc
        rw [hM.wellFormed.ends_eq_empty fun _ => ⟨c, rfl, hc⟩,
          hN.wellFormed.ends_eq_empty fun _ => ⟨c, rfl, image⟩]
        rfl

theorem Reduced.isIsomorphism_of_walk (hM : M.Reduced) (hN : N.Reduced)
    (alphabet : N.alphabet = M.alphabet) (same : ∀ w, M.Accepts w ↔ N.Accepts w)
    (injective : ∀ q r, q ∈ M.states → r ∈ M.states → f q = f r → q = r)
    (walk : ∀ w, M.Over w → N.walk N.start w = f (M.walk M.start w)) : IsIsomorphism f M N :=
  hM.isDfa.isIsomorphism_of_walk hN.isDfa hM.allReachable hN.allReachable alphabet same injective
    walk

/-- Reduced automata over one alphabet that accept the same texts are isomorphic. -/
theorem Reduced.exists_isIsomorphism (hM : M.Reduced) (hN : N.Reduced)
    (alphabet : N.alphabet = M.alphabet) (same : ∀ w, M.Accepts w ↔ N.Accepts w) :
    ∃ f, IsIsomorphism f M N := by
  have covered : ∀ w, M.Over w → N.Over w := fun w => (over_iff_of_alphabet alphabet).2
  have start_mem := hM.isDfa.wellFormed.start_mem
  -- texts lead to one state in both automata or in neither
  have meet : ∀ u v, M.Over u → M.Over v →
      (M.walk M.start u = M.walk M.start v ↔ N.walk N.start u = N.walk N.start v) := by
    intro u v hu hv
    constructor
    · intro h
      have equivalent := equivalent_of_walk_eq hN.isDfa hM.isDfa (fun c hc => alphabet ▸ hc)
        (fun w => (same w).symm) (covered u hu) (covered v hv) h
      have start_mem := hN.isDfa.wellFormed.start_mem
      exact hN.eq_of_equivalent _ _ (hN.isDfa.walk_mem start_mem (covered u hu))
        (hN.isDfa.walk_mem start_mem (covered v hv)) equivalent
    · intro h
      have equivalent := equivalent_of_walk_eq hM.isDfa hN.isDfa (fun c hc => alphabet ▸ hc)
        same hu hv h
      exact hM.eq_of_equivalent _ _ (hM.isDfa.walk_mem start_mem hu)
        (hM.isDfa.walk_mem start_mem hv) equivalent
  choose! text overText walkText using hM.allReachable
  refine ⟨fun q => N.walk N.start (text q), hM.isIsomorphism_of_walk hN alphabet same ?_ ?_⟩
  · intro q r hq hr h
    rw [← walkText q hq, ← walkText r hr]
    exact (meet _ _ (overText q hq) (overText r hr)).2 h
  · intro w hw
    have mem := hM.isDfa.walk_mem start_mem hw
    exact (meet _ _ hw (overText _ mem)).1 (walkText _ mem).symm

end Automaton

end PatternAutomata
