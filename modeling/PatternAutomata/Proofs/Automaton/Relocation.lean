import PatternAutomata.Proofs.Automaton.Comparison
import PatternAutomata.Proofs.Automaton.Naming

/-!
# Renamed automata have relocated results

What determinizing gives depends on the identity of the states only in the names, which mention
them, and in the number that the first state gets.  The same holds of minimizing a deterministic
automaton, as long as the order of its states is kept, since blocks are ordered by their smallest
members.

* `IsIsomorphism.statesAfter_eq` — the sets of states after a text go along with a renaming;
* `NamesAlike`, `IsRelocation` — results that differ by a constant, and in the states that their
  names mention;
* `IsIsomorphism.isRelocation_subsetAutomaton` — the subset automata of renamed automata;
* `IsIsomorphism.inStep`, `IsIsomorphism.refine_eq` — deterministic automata that are renamed in
  their order are minimized in step, and the blocks go along;
* `IsIsomorphism.isRelocation_quotientBy`, `IsIsomorphism.exists_runFrom_minimize` — the quotients
  by them, and minimizing as a whole;
* `exists_name_subsetAutomaton`, `IsDfa.exists_name_minimize` — all states of these results are
  named after sets of states of the given automaton.
-/

namespace PatternAutomata

namespace Automaton

variable {A B M N : Automaton} {f : State → State} {p q r s base k : State} {w : Text}
  {S T : SortedSet State}

/-! ### Texts in renamed automata -/

namespace IsIsomorphism

theorem over_iff (h : IsIsomorphism f M N) : N.Over w ↔ M.Over w := over_iff_of_alphabet h.alphabet

theorem path_map (h : IsIsomorphism f M N) (path : M.Path q w r) (hq : q ∈ M.states) :
    N.Path (f q) w (f r) := by
  have step : ∀ {q r : State} {l : Label}, q ∈ M.states → r ∈ M.ends q l →
      f r ∈ N.ends (f q) l := by
    intro q r l hq hr
    rw [h.ends q hq l]
    exact SortedSet.mem_map_of_mem hr
  induction path with
  | refl q => exact .refl (f q)
  | silent hr _ ih =>
    exact .silent (step hq hr) (ih (h.source_wellFormed.mem_states_of_mem_ends hr))
  | read hr _ ih => exact .read (step hq hr) (ih (h.source_wellFormed.mem_states_of_mem_ends hr))

theorem exists_path (h : IsIsomorphism f M N) (path : N.Path s w p) (hq : q ∈ M.states)
    (start : f q = s) : ∃ r, M.Path q w r ∧ f r = p := by
  have step : ∀ {q s : State} {l : Label}, q ∈ M.states → s ∈ N.ends (f q) l →
      ∃ r, r ∈ M.ends q l ∧ f r = s := by
    intro q s l hq hs
    rw [h.ends q hq l] at hs
    exact SortedSet.mem_map.1 hs
  induction path generalizing q with
  | refl s => exact ⟨q, .refl q, start⟩
  | silent hr _ ih =>
    subst start
    obtain ⟨m, hm, same⟩ := step hq hr
    obtain ⟨r, tail, image⟩ := ih (h.source_wellFormed.mem_states_of_mem_ends hm) same
    exact ⟨r, .silent hm tail, image⟩
  | read hr _ ih =>
    subst start
    obtain ⟨m, hm, same⟩ := step hq hr
    obtain ⟨r, tail, image⟩ := ih (h.source_wellFormed.mem_states_of_mem_ends hm) same
    exact ⟨r, .read hm tail, image⟩

/-- The sets of states after a text go along with a renaming. -/
theorem statesAfter_eq (h : IsIsomorphism f M N) (w : Text) :
    N.statesAfter w = (M.statesAfter w).map f := by
  have start_mem := h.source_wellFormed.start_mem
  apply SortedSet.ext
  intro p
  rw [mem_statesAfter_iff h.target_wellFormed, SortedSet.mem_map, h.start]
  constructor
  · intro path
    obtain ⟨r, path, image⟩ := h.exists_path path start_mem rfl
    exact ⟨r, (mem_statesAfter_iff h.source_wellFormed).2 path, image⟩
  · intro image
    obtain ⟨r, hr, rfl⟩ := image
    exact h.path_map ((mem_statesAfter_iff h.source_wellFormed).1 hr) start_mem

theorem mem_accepting_iff (h : IsIsomorphism f M N) (hq : q ∈ M.states) :
    f q ∈ N.accepting ↔ q ∈ M.accepting := by
  rw [h.accepting, SortedSet.mem_map]
  constructor
  · intro image
    obtain ⟨r, hr, same⟩ := image
    rw [← h.injective r q (h.source_wellFormed.accepting_subset r hr) hq same]
    exact hr
  · intro hacc
    exact ⟨q, hacc, rfl⟩

theorem accepts_iff (h : IsIsomorphism f M N) (w : Text) : M.Accepts w ↔ N.Accepts w := by
  have start_mem := h.source_wellFormed.start_mem
  constructor
  · intro accepted
    obtain ⟨r, hr, path⟩ := accepted
    refine ⟨f r, (h.mem_accepting_iff (path.state_mem h.source_wellFormed start_mem)).2 hr, ?_⟩
    rw [h.start]
    exact h.path_map path start_mem
  · intro accepted
    obtain ⟨p, hp, path⟩ := accepted
    obtain ⟨r, before, rfl⟩ := h.exists_path path start_mem h.start.symm
    exact ⟨r, (h.mem_accepting_iff (before.state_mem h.source_wellFormed start_mem)).1 hp, before⟩

theorem accepts_iff_accepts (h : IsIsomorphism f M N) (w : Text) :
    N.Accepts w ↔ M.accepts w = true := by
  rw [← h.accepts_iff w, Automaton.accepts_iff h.source_wellFormed]

/-! ### The subset automata -/

theorem map_injective (h : IsIsomorphism f M N) (hS : S ⊆ M.states) (hT : T ⊆ M.states)
    (same : S.map f = T.map f) : S = T :=
  SortedSet.eq_of_map_eq h.injective hS hT same

/-- The discovered sets go along with a renaming, in their order. -/
theorem subsets_eq (h : IsIsomorphism f M N) :
    N.subsets = M.subsets.map (SortedSet.map f) := by
  obtain ⟨m, hm⟩ := subsets_eq_distinct h.source_wellFormed
  obtain ⟨n, hn⟩ := subsets_eq_distinct h.target_wellFormed
  rw [hm (max m n) (Nat.le_max_left m n), hn (max m n) (Nat.le_max_right m n), h.alphabet]
  have own : ∀ S ∈ (textsUpTo M.alphabet.toList (max m n)).map M.statesAfter, S ⊆ M.states := by
    intro S hS
    obtain ⟨w, _, rfl⟩ := List.mem_map.1 hS
    exact statesAfter_subset h.source_wellFormed w
  have images : (textsUpTo M.alphabet.toList (max m n)).map N.statesAfter
      = ((textsUpTo M.alphabet.toList (max m n)).map M.statesAfter).map (SortedSet.map f) := by
    rw [List.map_map]
    exact List.map_congr_left fun w _ => h.statesAfter_eq w
  rw [images]
  exact distinct_map_of_injective fun S T hS hT => h.map_injective (own S hS) (own T hT)

end IsIsomorphism

/-! ### Results that differ by a constant -/

/-- No name, or the names of a set of states and of its image. -/
inductive NamesAlike (f : State → State) : Option Text → Option Text → Prop where
  | unnamed : NamesAlike f none none
  | set (S : SortedSet State) :
      NamesAlike f (some (subsetName S)) (some (subsetName (S.map f)))

/-- `N` is `M` with a constant added to its states, and the states that its names mention renamed
by `f`. -/
structure IsRelocation (f : State → State) (k : State) (M N : Automaton) : Prop where
  isIsomorphism : IsIsomorphism (· + k) M N
  names : ∀ q, NamesAlike f (M.names.get? q) (N.names.get? (q + k))

/-- Sets with members are named as blocks. -/
theorem NamesAlike.block (hq : q ∈ S) :
    NamesAlike f (some (setText S)) (some (setText (S.map f))) := by
  rw [← subsetName_of_mem hq, ← subsetName_of_mem (SortedSet.mem_map_of_mem hq)]
  exact .set S

theorem IsRelocation.name_eq_subsetName (h : IsRelocation f k M N)
    (name : M.names.get? q = some (subsetName S)) :
    N.names.get? (q + k) = some (subsetName (S.map f)) := by
  have alike := h.names q
  rw [name] at alike
  generalize N.names.get? (q + k) = image at alike
  generalize named : some (subsetName S) = t at alike
  cases alike with
  | unnamed => cases named
  | set T => rw [subsetName_injective (Option.some.inj named)]

theorem IsRelocation.name_eq_setText (h : IsRelocation f k M N) (hr : r ∈ S)
    (name : M.names.get? q = some (setText S)) :
    N.names.get? (q + k) = some (setText (S.map f)) := by
  rw [← subsetName_of_mem hr] at name
  rw [← subsetName_of_mem (SortedSet.mem_map_of_mem hr)]
  exact h.name_eq_subsetName name

/-- Names that are given along a list, and names that are given along the list of the images. -/
theorem namesAlike_numberedNames {α : Type} [DecidableEq α] {l : List α} {g : α → α}
    {text : α → Text} (injective : ∀ a b, a ∈ l → b ∈ l → g a = g b → a = b)
    (alike : ∀ a ∈ l, NamesAlike f (some (text a)) (some (text (g a)))) (q : State) :
    NamesAlike f ((numberedNames l base text).get? q)
      ((numberedNames (l.map g) (base + k) text).get? (q + k)) := by
  by_cases number : ∃ a ∈ l, numbered l base a = q
  · obtain ⟨a, ha, rfl⟩ := number
    rw [get?_numberedNames ha, ← numbered_map injective ha,
      get?_numberedNames (List.mem_map.2 ⟨a, ha, rfl⟩)]
    exact alike a ha
  · have left : (numberedNames l base text).get? q = none := by
      cases look : (numberedNames l base text).get? q with
      | none => rfl
      | some t =>
        obtain ⟨a, ha, same, _⟩ := exists_of_get?_numberedNames look
        exact absurd ⟨a, ha, same⟩ number
    have right : (numberedNames (l.map g) (base + k) text).get? (q + k) = none := by
      cases look : (numberedNames (l.map g) (base + k) text).get? (q + k) with
      | none => rfl
      | some t =>
        obtain ⟨b, hb, same, _⟩ := exists_of_get?_numberedNames look
        obtain ⟨a, ha, rfl⟩ := List.mem_map.1 hb
        rw [numbered_map injective ha] at same
        exact absurd ⟨a, ha, (Int.add_left_inj k).1 same⟩ number
    rw [left, right]
    exact .unnamed

namespace IsIsomorphism

theorem eq_of_map_eq_of_mem_subsets (h : IsIsomorphism f M N) (S T : SortedSet State)
    (hS : S ∈ M.subsets) (hT : T ∈ M.subsets) (same : S.map f = T.map f) : S = T :=
  h.map_injective (subset_of_mem_subsets h.source_wellFormed hS)
    (subset_of_mem_subsets h.source_wellFormed hT) same

/-- The subset automata of renamed automata differ by the difference of their bases, and in the
states that the names mention. -/
theorem isRelocation_subsetAutomaton (h : IsIsomorphism f M N) (base k : State) :
    IsRelocation f k (M.subsetAutomaton base) (N.subsetAutomaton (base + k)) where
  isIsomorphism := by
    have hM : (M.subsetAutomaton base).IsDfa := isDfa_subsetAutomaton h.source_wellFormed
    have hN : (N.subsetAutomaton (base + k)).IsDfa := isDfa_subsetAutomaton h.target_wellFormed
    refine hM.isIsomorphism_of_walk hN (fun q => exists_walk_subsetAutomaton h.source_wellFormed)
      (fun q => exists_walk_subsetAutomaton h.target_wellFormed) h.alphabet ?_ ?_ ?_
    · intro w
      rw [accepts_subsetAutomaton h.source_wellFormed, accepts_subsetAutomaton h.target_wellFormed]
      exact h.accepts_iff w
    · intro q r _ _ same
      exact (Int.add_left_inj k).1 same
    · intro w hw
      have spelt : M.Over w := hw
      rw [walk_subsetAutomaton h.source_wellFormed spelt,
        walk_subsetAutomaton h.target_wellFormed (h.over_iff.2 spelt), h.statesAfter_eq,
        h.subsets_eq]
      exact numbered_map h.eq_of_map_eq_of_mem_subsets
        (statesAfter_mem_subsets h.source_wellFormed spelt) k
  names := by
    intro q
    show NamesAlike f ((numberedNames M.subsets base subsetName).get? q)
      ((numberedNames N.subsets (base + k) subsetName).get? (q + k))
    rw [h.subsets_eq]
    exact namesAlike_numberedNames h.eq_of_map_eq_of_mem_subsets (fun S _ => .set S) q

/-- Determinizing a renamed automaton takes as many states. -/
theorem runFrom_determinize_image (h : IsIsomorphism f M N) (counter k : State) :
    N.determinize.runFrom (counter + k) =
      (.ok (N.subsetAutomaton (counter + k)), counter + M.subsets.length + k) := by
  rw [runFrom_determinize h.target_wellFormed, h.subsets_eq, List.length_map,
    Int.add_right_comm counter k]

/-! ### Deterministic automata -/

theorem isDfa (h : IsIsomorphism f M N) (hM : M.IsDfa) : N.IsDfa :=
  ⟨h.target_wellFormed, h.kind.trans hM.kind⟩

/-- Texts lead to renamed states. -/
theorem walk_eq (h : IsIsomorphism f M N) (hM : M.IsDfa) (hw : M.Over w) :
    N.walk N.start w = f (M.walk M.start w) := by
  have start_mem := h.source_wellFormed.start_mem
  have path := h.path_map ((hM.path_iff start_mem).2 ⟨hw, rfl⟩) start_mem
  rw [← h.start] at path
  exact (((h.isDfa hM).path_iff h.target_wellFormed.start_mem).1 path).2

/-- The reachable part of a renamed automaton is the renamed reachable part. -/
theorem reachablePart (h : IsIsomorphism f A B) (hA : A.IsDfa) (partA : A.IsReachablePart M)
    (partB : B.IsReachablePart N) : IsIsomorphism f M N := by
  refine partA.isDfa.isIsomorphism_of_walk partB.isDfa partA.allReachable partB.allReachable
    ?_ ?_ ?_ ?_
  · rw [partB.alphabet, partA.alphabet, h.alphabet]
  · intro w
    rw [partA.accepts_iff hA, partB.accepts_iff (h.isDfa hA), h.accepts_iff]
  · intro q r hq hr same
    exact h.injective q r (hA.mem_states_of_reaches ((partA.mem_states_iff q).1 hq))
      (hA.mem_states_of_reaches ((partA.mem_states_iff r).1 hr)) same
  · intro w hw
    have spelt : A.Over w := partA.over_iff.1 hw
    rw [partB.walk_eq (h.over_iff.2 spelt), partA.walk_eq spelt, h.walk_eq hA spelt]

/-- Blocks to which the same texts lead are a block and its image. -/
theorem eq_map_of_sameTexts (h : IsIsomorphism f M N) (hM : M.IsDfa) (reached : M.AllReachable)
    (same : M.SameTexts N S T) : T = S.map f := by
  apply SortedSet.ext
  intro p
  rw [SortedSet.mem_map]
  constructor
  · intro hp
    have states := same.right_subset p hp
    rw [h.states] at states
    obtain ⟨q, hq, rfl⟩ := SortedSet.mem_map.1 states
    obtain ⟨w, hw, rfl⟩ := reached q hq
    rw [← h.walk_eq hM hw] at hp
    exact ⟨_, (same.mem_iff w hw).2 hp, rfl⟩
  · intro image
    obtain ⟨q, hq, rfl⟩ := image
    obtain ⟨w, hw, rfl⟩ := reached q (same.left_subset q hq)
    rw [← h.walk_eq hM hw]
    exact (same.mem_iff w hw).1 hq

section Ascending

variable (h : IsIsomorphism f M N) (hM : M.IsDfa) (reached : M.AllReachable)
  (ascends : ∀ q r, q ∈ M.states → r ∈ M.states → q < r → f q < f r)

include h hM reached ascends

/-- Deterministic automata that are renamed in their order are minimized in step. -/
theorem inStep : M.InStep N where
  left := hM
  right := h.isDfa hM
  left_reached := reached
  right_reached := by
    intro p hp
    have states : p ∈ N.states := hp
    rw [h.states] at states
    obtain ⟨q, hq, rfl⟩ := SortedSet.mem_map.1 states
    obtain ⟨w, hw, rfl⟩ := reached q hq
    exact ⟨w, h.over_iff.2 hw, h.walk_eq hM hw⟩
  alphabet := h.alphabet
  accepts_iff := h.accepts_iff
  valuesOn_eq := by
    intro b d g g' same agree
    have within : ∀ q ∈ b.toList, q ∈ M.states := same.left_subset
    have listed : d.toList = b.toList.map f := by
      rw [h.eq_map_of_sameTexts hM reached same]
      exact SortedSet.toList_map fun q r hq hr => ascends q r (within q hq) (within r hr)
    show distinct (b.toList.map g) = distinct (d.toList.map g')
    rw [listed, List.map_map]
    congr 1
    apply List.map_congr_left
    intro q hq
    obtain ⟨w, hw, rfl⟩ := reached q (within q hq)
    rw [agree w hw, h.walk_eq hM hw]
    rfl

/-- The blocks of the refinement go along with a renaming that keeps the order, in their order. -/
theorem refine_eq : N.refine = M.refine.map (SortedSet.map f) := by
  have together := (h.inStep hM reached ascends).forall₂_refine
  generalize M.refine = blocks at together
  generalize N.refine = images at together
  induction together with
  | nil => rfl
  | cons same _ ih =>
    rw [List.map_cons, ← ih]
    congr 1
    exact h.eq_map_of_sameTexts hM reached same

/-- The quotients differ by the difference of their bases, and in the states that the names
mention. -/
theorem isRelocation_quotientBy (base k : State) :
    IsRelocation f k (M.quotientBy M.refine base) (N.quotientBy N.refine (base + k)) where
  isIsomorphism := by
    have quotients :=
      (h.inStep hM reached ascends).isIsomorphism_quotientBy base (base + k)
    rw [add_sub_cancel_left] at quotients
    exact quotients
  names := by
    intro q
    have partition := (isCongruence_refine hM).isPartition
    show NamesAlike f ((numberedNames M.refine base setText).get? q)
      ((numberedNames N.refine (base + k) setText).get? (q + k))
    rw [h.refine_eq hM reached ascends]
    apply namesAlike_numberedNames
    · intro b d hb hd same
      exact h.map_injective (partition.subset hb) (partition.subset hd) same
    · intro b hb
      obtain ⟨q, hq⟩ := partition.nonempty b hb
      exact .block hq

end Ascending

/-- Minimizing deterministic automata that are renamed in their order, from counters that differ by
a constant. -/
theorem exists_runFrom_minimize (h : IsIsomorphism f A B) (hA : A.IsDfa)
    (ascends : ∀ q r, q ∈ A.states → r ∈ A.states → q < r → f q < f r) (counter k : State) :
    ∃ M N next, A.minimize.runFrom counter = (.ok M, next) ∧
      B.minimize.runFrom (counter + k) = (.ok N, next + k) ∧ IsRelocation f k M N := by
  obtain ⟨A', partA, minimizedA⟩ := hA.exists_runFrom_minimize
  obtain ⟨B', partB, minimizedB⟩ := (h.isDfa hA).exists_runFrom_minimize
  have part : IsIsomorphism f A' B' := h.reachablePart hA partA partB
  have states : ∀ q, q ∈ A'.states → q ∈ A.states := fun q hq =>
    hA.mem_states_of_reaches ((partA.mem_states_iff q).1 hq)
  have ascending : ∀ q r, q ∈ A'.states → r ∈ A'.states → q < r → f q < f r :=
    fun q r hq hr => ascends q r (states q hq) (states r hr)
  refine ⟨_, _, _, minimizedA counter, ?_,
    part.isRelocation_quotientBy partA.isDfa partA.allReachable ascending counter k⟩
  rw [minimizedB, part.refine_eq partA.isDfa partA.allReachable ascending, List.length_map,
    Int.add_right_comm counter k]

end IsIsomorphism

/-! ### Results named after sets of states -/

theorem exists_name_subsetAutomaton (hA : A.WellFormed)
    (hq : q ∈ (A.subsetAutomaton base).states) :
    ∃ S, S ⊆ A.states ∧ (A.subsetAutomaton base).names.get? q = some (subsetName S) := by
  obtain ⟨S, hS, rfl⟩ := mem_states_subsetAutomaton.1 hq
  exact ⟨S, subset_of_mem_subsets hA hS, get?_names_subsetAutomaton hS⟩

theorem IsDfa.exists_name_minimize {counter next : State} (hA : A.IsDfa)
    (minimized : A.minimize.runFrom counter = (.ok M, next)) (hq : q ∈ M.states) :
    ∃ b r, r ∈ b ∧ b ⊆ A.states ∧ M.names.get? q = some (setText b) := by
  obtain ⟨B, part, run⟩ := hA.exists_runFrom_minimize
  rw [run] at minimized
  obtain ⟨same, -⟩ := Prod.mk.inj minimized
  obtain rfl := Except.ok.inj same
  have partition := (isCongruence_refine part.isDfa).isPartition
  obtain ⟨b, hb, rfl⟩ := mem_states_quotientBy_iff_numbered.1 hq
  obtain ⟨r, hr⟩ := partition.nonempty b hb
  refine ⟨b, r, hr, ?_, get?_names_quotientBy hb⟩
  intro s hs
  exact hA.mem_states_of_reaches ((part.mem_states_iff s).1 (partition.subset hb s hs))

end Automaton

end PatternAutomata
