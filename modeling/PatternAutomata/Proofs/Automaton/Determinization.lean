import Mathlib.Data.List.Sublists
import PatternAutomata.Automaton.Subset
import PatternAutomata.Proofs.Automaton.Acceptance
import PatternAutomata.Proofs.Automaton.Assembly
import PatternAutomata.Proofs.Data.Breadth
import PatternAutomata.Proofs.Data.Numbering

/-!
# The subset automaton

The subset automaton of a well-formed automaton is deterministic, is in the state that stands for
the set of states in which the given automaton can be, and so accepts the same texts.  Its states
are numbered in the order of the texts that lead to them.

* `mem_subsets_iff` — its states stand for the sets of states after texts over the alphabet;
* `runFrom_determinize` — determinizing gives the subset automaton, with one fresh state for each
  set;
* `isDfa_subsetAutomaton`, `walk_subsetAutomaton`, `accepts_subsetAutomaton` — what it is, where it
  goes, and what it accepts;
* `InBreadthOrder` — states that ascend in the order of the texts that lead to them;
* `inBreadthOrder_subsetAutomaton` — those of the subset automaton do.
-/

namespace PatternAutomata

namespace Automaton

variable {A : Automaton} {q r base : State} {c : Symbol} {w : Text} {S T : SortedSet State}

/-! ### The discovered sets -/

theorem mem_states_of_mem_after (hA : A.WellFormed) (h : q ∈ A.after S c) : q ∈ A.states := by
  obtain ⟨p, r, _, hr, hrq⟩ := (mem_after_iff hA).1 h
  exact (hrq.path (.refl q)).state_mem hA (hA.mem_states_of_mem_ends hr)

/-- A set has two to the number of its members many subsets. -/
theorem exists_subsets (U : SortedSet State) :
    ∃ sets : List (SortedSet State), sets.length = Nat.pow 2 U.size ∧ ∀ S, S ⊆ U → S ∈ sets := by
  refine ⟨U.toList.sublists.map .ofList, ?_, ?_⟩
  · rw [List.length_map, List.length_sublists]
    rfl
  · intro S hS
    refine List.mem_map.2 ⟨U.toList.filter (· ∈ S), ?_, ?_⟩
    · exact List.mem_sublists.2 List.filter_sublist
    · apply SortedSet.ext
      intro a
      rw [SortedSet.mem_ofList, List.mem_filter]
      constructor
      · intro h
        exact of_decide_eq_true h.2
      · intro h
        exact ⟨hS a h, decide_eq_true h⟩

/-- The sets are discovered in the order of the texts that lead to them. -/
theorem subsets_eq_distinct (hA : A.WellFormed) :
    ∃ n, ∀ m, n ≤ m →
      A.subsets = distinct ((textsUpTo A.alphabet.toList m).map A.statesAfter) := by
  obtain ⟨sets, size, all⟩ := exists_subsets A.states
  have inside : ∀ S ∈ sets, ∀ c ∈ A.alphabet.toList, A.after S c ∈ sets := by
    intro S _ c _
    exact all _ fun q hq => mem_states_of_mem_after hA hq
  exact explore_eq_distinct_texts (all _ (statesAfter_subset hA [])) inside (Nat.le_of_eq size)

theorem nodup_subsets (A : Automaton) : A.subsets.Nodup := nodup_explore _ _ _

/-- The discovered sets are the sets of states after texts over the alphabet. -/
theorem mem_subsets_iff (hA : A.WellFormed) :
    S ∈ A.subsets ↔ ∃ w, A.Over w ∧ A.statesAfter w = S := by
  obtain ⟨n, hn⟩ := subsets_eq_distinct hA
  constructor
  · intro h
    rw [hn n (Nat.le_refl n), mem_distinct] at h
    obtain ⟨w, hw, rfl⟩ := List.mem_map.1 h
    exact ⟨w, symbol_mem_of_mem_textsUpTo hw, rfl⟩
  · intro h
    obtain ⟨w, hw, rfl⟩ := h
    rw [hn (max n w.length) (Nat.le_max_left _ _), mem_distinct]
    exact List.mem_map.2 ⟨w, mem_textsUpTo hw (Nat.le_max_right _ _), rfl⟩

theorem statesAfter_mem_subsets (hA : A.WellFormed) (hw : A.Over w) :
    A.statesAfter w ∈ A.subsets := (mem_subsets_iff hA).2 ⟨w, hw, rfl⟩

theorem subset_of_mem_subsets (hA : A.WellFormed) (hS : S ∈ A.subsets) : S ⊆ A.states := by
  obtain ⟨w, _, rfl⟩ := (mem_subsets_iff hA).1 hS
  exact statesAfter_subset hA w

theorem after_mem_subsets (hA : A.WellFormed) (hS : S ∈ A.subsets) (hc : c ∈ A.alphabet) :
    A.after S c ∈ A.subsets := by
  obtain ⟨w, hw, rfl⟩ := (mem_subsets_iff hA).1 hS
  rw [← statesAfter_snoc]
  refine statesAfter_mem_subsets hA (over_append.2 ⟨hw, ?_⟩)
  exact over_cons.2 ⟨hc, over_nil A⟩

theorem numbered_initial (hA : A.WellFormed) : numbered A.subsets base A.initial = base := by
  obtain ⟨n, hn⟩ := subsets_eq_distinct hA
  have first : ∃ rest, A.subsets = A.initial :: rest := by
    rw [hn (n + 1) (Nat.le_succ n), textsUpTo, List.map_cons, statesAfter_nil]
    exact ⟨_, rfl⟩
  obtain ⟨rest, eq⟩ := first
  show base + (A.subsets.idxOf A.initial : Int) = base
  rw [eq, List.idxOf_cons_self]
  exact Int.add_zero base

/-! ### The subset automaton -/

/-- The automaton on the discovered sets, numbered from `base`. -/
def subsetAutomaton (A : Automaton) (base : State) : Automaton :=
  (A.onSubsets A.subsets base).compact

/-- The entries of its transition table. -/
theorem mem_subsetTable_iff {origin : Origin} {ends : SortedSet State} :
    (origin, ends) ∈ (A.subsets.flatMap fun S => A.alphabet.toList.map fun c =>
        ((⟨numbered A.subsets base S, some c⟩ : Origin),
          SortedSet.singleton (numbered A.subsets base (A.after S c)))) ↔
      ∃ S ∈ A.subsets, ∃ c ∈ A.alphabet.toList,
        origin = ⟨numbered A.subsets base S, some c⟩ ∧
          ends = .singleton (numbered A.subsets base (A.after S c)) := by
  simp only [List.mem_flatMap, List.mem_map, Prod.mk.injEq]
  constructor
  · intro h
    obtain ⟨S, hS, c, hc, rfl, rfl⟩ := h
    exact ⟨S, hS, c, hc, rfl, rfl⟩
  · intro h
    obtain ⟨S, hS, c, hc, rfl, rfl⟩ := h
    exact ⟨S, hS, c, hc, rfl, rfl⟩

theorem ends_onSubsets_some (hS : S ∈ A.subsets) (hc : c ∈ A.alphabet) :
    (A.onSubsets A.subsets base).ends (numbered A.subsets base S) (some c)
      = .singleton (numbered A.subsets base (A.after S c)) := by
  apply ends_of_mem_table rfl
  · exact mem_subsetTable_iff.2 ⟨S, hS, c, hc, rfl, rfl⟩
  · intro e he
    obtain ⟨T, hT, d, _, same, rfl⟩ := mem_subsetTable_iff.1 he
    rw [Origin.mk.injEq] at same
    obtain ⟨number, label⟩ := same
    cases label
    rw [eq_of_numbered_eq hS number]

theorem step_onSubsets {l : Label} (h : r ∈ (A.onSubsets A.subsets base).ends q l) :
    ∃ S ∈ A.subsets, ∃ c ∈ A.alphabet.toList, q = numbered A.subsets base S ∧ l = some c ∧
      r = numbered A.subsets base (A.after S c) := by
  obtain ⟨e, mem, eq⟩ := exists_mem_table rfl h
  obtain ⟨S, hS, c, hc, same, rfl⟩ := mem_subsetTable_iff.1 mem
  rw [Origin.mk.injEq] at same
  rw [eq, SortedSet.mem_singleton] at h
  exact ⟨S, hS, c, hc, same.1, same.2, h⟩

theorem mem_states_subsetAutomaton :
    q ∈ (A.subsetAutomaton base).states ↔ ∃ S ∈ A.subsets, numbered A.subsets base S = q := by
  show q ∈ SortedSet.ofList (A.subsets.map (numbered A.subsets base)) ↔ _
  rw [SortedSet.mem_ofList, List.mem_map]

theorem mem_accepting_subsetAutomaton (hS : S ∈ A.subsets) :
    numbered A.subsets base S ∈ (A.subsetAutomaton base).accepting ↔
      ∃ q, q ∈ S ∧ q ∈ A.accepting := by
  show _ ∈ SortedSet.ofList ((A.subsets.filter fun S => !decide (S.Disjoint A.accepting)).map
    (numbered A.subsets base)) ↔ _
  rw [← SortedSet.not_disjoint_iff, SortedSet.mem_ofList, List.mem_map]
  constructor
  · intro h
    obtain ⟨T, hT, same⟩ := h
    obtain ⟨mem, accepting⟩ := List.mem_filter.1 hT
    rw [eq_of_numbered_eq mem same] at accepting
    simpa using accepting
  · intro h
    exact ⟨S, List.mem_filter.2 ⟨hS, by simpa using h⟩, rfl⟩

theorem fits_onSubsets (hA : A.WellFormed) : (A.onSubsets A.subsets base).Fits where
  start_mem := by
    refine mem_states_subsetAutomaton.2 ⟨A.initial, ?_, numbered_initial hA⟩
    exact statesAfter_mem_subsets hA (over_nil A)
  accepting_subset := by
    intro q hq
    obtain ⟨S, hS, rfl⟩ := List.mem_map.1 (SortedSet.mem_ofList.1 hq)
    exact mem_states_subsetAutomaton.2 ⟨S, (List.mem_filter.1 hS).1, rfl⟩
  step := by
    intro q l r hr
    obtain ⟨S, hS, c, hc, rfl, rfl, rfl⟩ := step_onSubsets hr
    refine ⟨mem_states_subsetAutomaton.2 ⟨S, hS, rfl⟩, ?_, ?_⟩
    · exact mem_states_subsetAutomaton.2 ⟨_, after_mem_subsets hA hS hc, rfl⟩
    · intro d hd
      cases hd
      exact hc
  deterministic := by
    intro _
    constructor
    · intro q _
      rw [SortedSet.eq_empty_iff]
      intro r hr
      obtain ⟨_, _, _, _, _, label, _⟩ := step_onSubsets hr
      cases label
    · intro q hq c hc
      obtain ⟨S, hS, rfl⟩ := mem_states_subsetAutomaton.1 hq
      rw [ends_onSubsets_some hS hc]
      rfl

theorem isDfa_subsetAutomaton (hA : A.WellFormed) : (A.subsetAutomaton base).IsDfa :=
  ⟨(fits_onSubsets hA).wellFormed_compact, rfl⟩

theorem alphabet_subsetAutomaton (A : Automaton) (base : State) :
    (A.subsetAutomaton base).alphabet = A.alphabet := rfl

theorem over_subsetAutomaton_iff : (A.subsetAutomaton base).Over w ↔ A.Over w := Iff.rfl

/-- Determinizing gives the subset automaton and takes one state for each discovered set. -/
theorem runFrom_determinize (hA : A.WellFormed) (counter : State) :
    A.determinize.runFrom counter =
      (.ok (A.subsetAutomaton counter), counter + A.subsets.length) := by
  unfold determinize
  rw [Fresh.runFrom_bind, Fresh.runFrom_reserve]
  exact (fits_onSubsets hA).runFrom_assembled _

/-! ### Where it goes and what it accepts -/

theorem advance_subsetAutomaton (hA : A.WellFormed) (hS : S ∈ A.subsets) (hc : c ∈ A.alphabet) :
    (A.subsetAutomaton base).advance (numbered A.subsets base S) c
      = numbered A.subsets base (A.after S c) := by
  have mem : numbered A.subsets base S ∈ (A.subsetAutomaton base).states :=
    mem_states_subsetAutomaton.2 ⟨S, hS, rfl⟩
  have ends := (isDfa_subsetAutomaton hA).ends_some mem hc
  rw [subsetAutomaton, ends_compact, ends_onSubsets_some hS hc] at ends
  have listed := congrArg SortedSet.toList ends
  exact (List.cons.inj listed).1.symm

/-- After a text the subset automaton is in the state that stands for the set of states in which
the given automaton can be. -/
theorem walk_subsetAutomaton (hA : A.WellFormed) (hw : A.Over w) :
    (A.subsetAutomaton base).walk (A.subsetAutomaton base).start w
      = numbered A.subsets base (A.statesAfter w) := by
  induction w using List.reverseRecOn with
  | nil => exact (numbered_initial hA).symm
  | append_singleton w c ih =>
    obtain ⟨hw, hc⟩ := over_append.1 hw
    rw [walk_snoc, ih hw, statesAfter_snoc]
    exact advance_subsetAutomaton hA (statesAfter_mem_subsets hA hw) (over_cons.1 hc).1

/-- Every state of the subset automaton is the one that some text leads to. -/
theorem exists_walk_subsetAutomaton (hA : A.WellFormed)
    (hq : q ∈ (A.subsetAutomaton base).states) :
    ∃ w, A.Over w ∧ (A.subsetAutomaton base).walk (A.subsetAutomaton base).start w = q := by
  obtain ⟨S, hS, rfl⟩ := mem_states_subsetAutomaton.1 hq
  obtain ⟨w, hw, rfl⟩ := (mem_subsets_iff hA).1 hS
  exact ⟨w, hw, walk_subsetAutomaton hA hw⟩

theorem accepts_subsetAutomaton (hA : A.WellFormed) (w : Text) :
    (A.subsetAutomaton base).Accepts w ↔ A.Accepts w := by
  rw [(isDfa_subsetAutomaton hA).accepts_iff_walk, over_subsetAutomaton_iff]
  constructor
  · intro h
    obtain ⟨hw, accepting⟩ := h
    rw [walk_subsetAutomaton hA hw,
      mem_accepting_subsetAutomaton (statesAfter_mem_subsets hA hw)] at accepting
    obtain ⟨q, hq, hacc⟩ := accepting
    exact ⟨q, hacc, (mem_statesAfter_iff hA).1 hq⟩
  · intro h
    have hw := h.over hA
    obtain ⟨q, hacc, path⟩ := h
    refine ⟨hw, ?_⟩
    rw [walk_subsetAutomaton hA hw,
      mem_accepting_subsetAutomaton (statesAfter_mem_subsets hA hw)]
    exact ⟨q, (mem_statesAfter_iff hA).2 path, hacc⟩

/-! ### The order of its states -/

/-- The states ascend in the order of the texts that lead to them, and every state is reached. -/
def InBreadthOrder (A : Automaton) : Prop :=
  ∃ n, ∀ m, n ≤ m →
    A.states.toList = distinct ((textsUpTo A.alphabet.toList m).map (A.walk A.start))

/-- The states are listed in the order of the discovered sets. -/
theorem toList_states_subsetAutomaton (A : Automaton) (base : State) :
    (A.subsetAutomaton base).states.toList = A.subsets.map (numbered A.subsets base) :=
  SortedSet.toList_ofList (pairwise_map_numbered (nodup_subsets A))

theorem inBreadthOrder_subsetAutomaton (hA : A.WellFormed) :
    (A.subsetAutomaton base).InBreadthOrder := by
  obtain ⟨n, hn⟩ := subsets_eq_distinct hA
  refine ⟨n, fun m hm => ?_⟩
  have walks : (textsUpTo A.alphabet.toList m).map
        ((A.subsetAutomaton base).walk (A.subsetAutomaton base).start)
      = ((textsUpTo A.alphabet.toList m).map A.statesAfter).map (numbered A.subsets base) := by
    rw [List.map_map]
    exact map_textsUpTo_congr fun w hw => walk_subsetAutomaton hA hw
  have nodup : (A.subsets.map (numbered A.subsets base)).Nodup :=
    (pairwise_map_numbered (nodup_subsets A)).imp fun h => Int.ne_of_lt h
  rw [toList_states_subsetAutomaton, alphabet_subsetAutomaton, walks, ← distinct_map_distinct,
    ← hn m hm, distinct_of_nodup nodup]

end Automaton

end PatternAutomata
