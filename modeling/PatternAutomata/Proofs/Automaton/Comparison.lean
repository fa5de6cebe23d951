import Mathlib.Algebra.Group.Basic
import Mathlib.Algebra.Group.Int.Defs
import Mathlib.Data.List.Forall2
import PatternAutomata.Proofs.Automaton.Isomorphism

/-!
# Automata that are minimized in step

If two deterministic automata accept the same texts, and functions that agree after every text have
the same values in the same order on blocks to which the same texts lead, then all rounds of the
refinement split blocks that go together in the same way: a block is a set of texts, whatever the
states are that the texts lead to.  So minimizing numbers the blocks alike, and the results differ
by a constant.

* `SameTexts` — two blocks to which the same texts lead; `SameTexts.forall₂_split` — their parts;
* `Counterparts` — two automata that accept the same texts; `InStep` — two that are minimized in
  step;
* `Counterparts.forall₂_refine`, `InStep.forall₂_refine` — after all rounds their blocks go
  together;
* `Counterparts.isIsomorphism_quotientBy` — so the quotients by the refinements differ by a
  constant.
-/

namespace PatternAutomata

namespace Automaton

variable {A B : Automaton} {c : Symbol} {w : Text} {b d : Block}
  {blocks blocks' rest rest' settled settled' : List Block} {f g : State → Nat}

/-! ### Blocks to which the same texts lead -/

/-- Blocks of two automata to which the same texts lead. -/
structure SameTexts (A B : Automaton) (b d : Block) : Prop where
  left_subset : b ⊆ A.states
  right_subset : d ⊆ B.states
  mem_iff : ∀ w, A.Over w → (A.walk A.start w ∈ b ↔ B.walk B.start w ∈ d)

/-- Two deterministic automata with all states reached, over one alphabet, that accept the same
texts. -/
structure Counterparts (A B : Automaton) : Prop where
  left : A.IsDfa
  right : B.IsDfa
  left_reached : A.AllReachable
  right_reached : B.AllReachable
  alphabet : B.alphabet = A.alphabet
  accepts_iff : ∀ w, A.Accepts w ↔ B.Accepts w

/-- Counterparts of which this holds: on blocks to which the same texts lead, functions that agree
after every text have the same values in the same order. -/
structure InStep (A B : Automaton) : Prop extends Counterparts A B where
  valuesOn_eq : ∀ b d (f g : State → Nat), A.SameTexts B b d →
    (∀ w, A.Over w → f (A.walk A.start w) = g (B.walk B.start w)) → valuesOn f b = valuesOn g d

theorem Counterparts.over_iff (h : A.Counterparts B) : B.Over w ↔ A.Over w :=
  over_iff_of_alphabet h.alphabet

theorem Counterparts.left_walk_mem (h : A.Counterparts B) (hw : A.Over w) :
    A.walk A.start w ∈ A.states :=
  h.left.walk_mem h.left.wellFormed.start_mem hw

theorem Counterparts.right_walk_mem (h : A.Counterparts B) (hw : A.Over w) :
    B.walk B.start w ∈ B.states :=
  h.right.walk_mem h.right.wellFormed.start_mem (h.over_iff.2 hw)

/-! ### The first blocks -/

theorem Counterparts.sameTexts_accepting (h : A.Counterparts B) :
    A.SameTexts B A.accepting B.accepting where
  left_subset := h.left.wellFormed.accepting_subset
  right_subset := h.right.wellFormed.accepting_subset
  mem_iff := fun _ hw => h.left.walk_mem_accepting_iff h.right h.alphabet h.accepts_iff hw

theorem Counterparts.sameTexts_rejecting (h : A.Counterparts B) :
    A.SameTexts B (A.states.sdiff A.accepting) (B.states.sdiff B.accepting) where
  left_subset := fun _ hq => (SortedSet.mem_sdiff.1 hq).1
  right_subset := fun _ hq => (SortedSet.mem_sdiff.1 hq).1
  mem_iff := by
    intro w hw
    rw [SortedSet.mem_sdiff, SortedSet.mem_sdiff, h.sameTexts_accepting.mem_iff w hw]
    simp only [h.left_walk_mem hw, h.right_walk_mem hw]

theorem Counterparts.isEmpty_eq (h : A.Counterparts B) (hbd : A.SameTexts B b d) :
    b.isEmpty = d.isEmpty := by
  rw [Bool.eq_iff_iff, SortedSet.isEmpty_iff, SortedSet.isEmpty_iff]
  constructor
  · intro empty q hq
    obtain ⟨w, hw, rfl⟩ := h.right_reached q (hbd.right_subset q hq)
    exact empty _ ((hbd.mem_iff w (h.over_iff.1 hw)).2 hq)
  · intro empty q hq
    obtain ⟨w, hw, rfl⟩ := h.left_reached q (hbd.left_subset q hq)
    exact empty _ ((hbd.mem_iff w hw).1 hq)

theorem Counterparts.forall₂_halves (h : A.Counterparts B) :
    List.Forall₂ (A.SameTexts B) A.halves B.halves := by
  unfold halves
  apply List.rel_filter
  · intro b d hbd
    show _ = true ↔ _ = true
    rw [h.isEmpty_eq hbd]
  · exact .cons h.sameTexts_accepting (.cons h.sameTexts_rejecting .nil)

/-! ### Parts -/

/-- Parts by the same values, in the same order, go together. -/
theorem SameTexts.forall₂_split (hbd : A.SameTexts B b d) (values : valuesOn f b = valuesOn g d)
    (hfg : ∀ w, A.Over w → f (A.walk A.start w) = g (B.walk B.start w)) :
    List.Forall₂ (A.SameTexts B) (split f b) (split g d) := by
  unfold split
  rw [values, List.forall₂_map_left_iff, List.forall₂_map_right_iff, List.forall₂_same]
  intro n _
  refine ⟨?_, ?_, ?_⟩
  · intro q hq
    exact hbd.left_subset q (SortedSet.mem_filter.1 hq).1
  · intro q hq
    exact hbd.right_subset q (SortedSet.mem_filter.1 hq).1
  · intro w hw
    rw [SortedSet.mem_filter, SortedSet.mem_filter, hbd.mem_iff w hw, hfg w hw]

/-- Functions that agree after every text have several values on one block if they have on the
other. -/
theorem Counterparts.one_lt_length_valuesOn_iff (h : A.Counterparts B) (hbd : A.SameTexts B b d)
    (hfg : ∀ w, A.Over w → f (A.walk A.start w) = g (B.walk B.start w)) :
    1 < (valuesOn f b).length ↔ 1 < (valuesOn g d).length := by
  rw [← not_iff_not, length_valuesOn_le_one_iff, length_valuesOn_le_one_iff]
  constructor
  · intro single m n hm hn
    obtain ⟨u, hu, rfl⟩ := h.right_reached m (hbd.right_subset m hm)
    obtain ⟨v, hv, rfl⟩ := h.right_reached n (hbd.right_subset n hn)
    have hu := h.over_iff.1 hu
    have hv := h.over_iff.1 hv
    rw [← hfg u hu, ← hfg v hv]
    exact single _ _ ((hbd.mem_iff u hu).2 hm) ((hbd.mem_iff v hv).2 hn)
  · intro single q r hq hr
    obtain ⟨u, hu, rfl⟩ := h.left_reached q (hbd.left_subset q hq)
    obtain ⟨v, hv, rfl⟩ := h.left_reached r (hbd.left_subset r hr)
    rw [hfg u hu, hfg v hv]
    exact single _ _ ((hbd.mem_iff u hu).1 hq) ((hbd.mem_iff v hv).1 hr)

/-! ### Rounds of splitting -/

/-- A text leads to blocks in the same place. -/
theorem place_eq_of_forall₂ (h : List.Forall₂ (A.SameTexts B) blocks blocks') (hw : A.Over w) :
    place blocks (A.walk A.start w) = place blocks' (B.walk B.start w) := by
  unfold place
  induction h with
  | nil => rfl
  | cons hbd _ ih =>
    rw [List.findIdx_cons, List.findIdx_cons, ih, decide_eq_decide.2 (hbd.mem_iff w hw)]

theorem target_eq_of_forall₂ (h : List.Forall₂ (A.SameTexts B) blocks blocks') (hw : A.Over w)
    (hc : c ∈ A.alphabet) :
    A.target blocks c (A.walk A.start w) = B.target blocks' c (B.walk B.start w) := by
  show place blocks (A.advance (A.walk A.start w) c)
    = place blocks' (B.advance (B.walk B.start w) c)
  rw [← walk_snoc, ← walk_snoc]
  exact place_eq_of_forall₂ h (over_append.2 ⟨hw, over_cons.2 ⟨hc, over_nil A⟩⟩)

/-- Both are missing, or both are there and their blocks go together. -/
def SameParts (A B : Automaton) : Option (List Block) → Option (List Block) → Prop :=
  Option.Rel (List.Forall₂ (A.SameTexts B))

/-- The first symbol that splits a block splits one that goes with it, into parts that go together if
the values that tell them apart stand in the same order. -/
theorem Counterparts.sameParts_parts? (h : A.Counterparts B)
    (hblocks : List.Forall₂ (A.SameTexts B) blocks blocks') (hbd : A.SameTexts B b d)
    (values : ∀ c ∈ A.alphabet,
      A.parts? A.columns blocks b = some (split (A.target blocks c) b) →
        valuesOn (A.target blocks c) b = valuesOn (B.target blocks' c) d) :
    A.SameParts B (A.parts? A.columns blocks b) (B.parts? B.columns blocks' d) := by
  rw [h.left.parts?_eq hbd.left_subset] at values ⊢
  rw [h.right.parts?_eq hbd.right_subset, h.alphabet]
  have within : ∀ c ∈ A.alphabet.toList, c ∈ A.alphabet := fun _ hc => hc
  generalize A.alphabet.toList = symbols at within values
  induction symbols with
  | nil => exact .none
  | cons c symbols ih =>
    have hc := within c List.mem_cons_self
    have targets : ∀ w, A.Over w →
        A.target blocks c (A.walk A.start w) = B.target blocks' c (B.walk B.start w) :=
      fun w hw => target_eq_of_forall₂ hblocks hw hc
    have several := h.one_lt_length_valuesOn_iff hbd targets
    rw [List.findSome?_cons] at values ⊢
    rw [List.findSome?_cons]
    by_cases long : 1 < (valuesOn (A.target blocks c) b).length
    · rw [if_pos long] at values ⊢
      rw [if_pos (several.1 long)]
      exact .some (hbd.forall₂_split (values c hc rfl) targets)
    · rw [if_neg long] at values ⊢
      rw [if_neg (mt several.2 long)]
      exact ih (fun x hx => within x (List.mem_cons_of_mem c hx)) values

/-- A round splits blocks that go together, if the first block that is split and the one that goes
with it have parts that go together. -/
theorem sameParts_splitFirst? (hrest : List.Forall₂ (A.SameTexts B) rest rest')
    (parts : ∀ pre b post d, rest = pre ++ b :: post →
      (∀ x ∈ pre, A.parts? A.columns blocks x = none) → A.SameTexts B b d →
        A.SameParts B (A.parts? A.columns blocks b) (B.parts? B.columns blocks' d)) :
    A.SameParts B (A.splitFirst? A.columns blocks rest)
      (B.splitFirst? B.columns blocks' rest') := by
  induction hrest with
  | nil => exact .none
  | @cons b d rest rest' hbd tail ih =>
    have here := parts [] b rest d rfl (List.forall_mem_nil _) hbd
    rw [splitFirst?, splitFirst?]
    generalize B.parts? B.columns blocks' d = right at here
    cases unsplit : A.parts? A.columns blocks b with
    | some left =>
      rw [unsplit] at here
      cases here with
      | some same => exact .some (List.rel_append same tail)
    | none =>
      rw [unsplit] at here
      cases here
      have later := ih fun pre x post e shape before => parts (b :: pre) x post e
        (congrArg (b :: ·) shape) (List.forall_mem_cons.2 ⟨unsplit, before⟩)
      generalize A.splitFirst? A.columns blocks rest = left at later
      generalize B.splitFirst? B.columns blocks' rest' = right at later
      cases later with
      | some same => exact .some (.cons hbd same)
      | none => exact .none

/-- If every round splits blocks that go together, the blocks go together after all rounds. -/
theorem Counterparts.forall₂_settled (h : A.Counterparts B)
    (step : ∀ {blocks blocks' : List Block}, A.IsPartition blocks → A.Settles blocks settled →
      List.Forall₂ (A.SameTexts B) blocks blocks' →
      A.SameParts B (A.splitFirst? A.columns blocks blocks)
        (B.splitFirst? B.columns blocks' blocks'))
    (hA : A.Settles blocks settled) (hB : B.Settles blocks' settled')
    (partition : A.IsPartition blocks) (hblocks : List.Forall₂ (A.SameTexts B) blocks blocks') :
    List.Forall₂ (A.SameTexts B) settled settled' := by
  induction hA generalizing blocks' with
  | done stable =>
    have same := step partition (.done stable) hblocks
    cases hB with
    | done _ => exact hblocks
    | round splits _ =>
      rw [stable, splits] at same
      cases same
  | round splits settles ih =>
    have same := step partition (.round splits settles) hblocks
    cases hB with
    | done stable =>
      rw [stable, splits] at same
      cases same
    | round splits' tail =>
      rw [splits, splits'] at same
      cases same with
      | some finer => exact ih step tail (partition.splitFirst h.left splits).1 finer

/-- So do the blocks of the two refinements. -/
theorem Counterparts.forall₂_refine (h : A.Counterparts B)
    (step : ∀ {blocks blocks' : List Block}, A.IsPartition blocks → A.Settles blocks A.refine →
      List.Forall₂ (A.SameTexts B) blocks blocks' →
      A.SameParts B (A.splitFirst? A.columns blocks blocks)
        (B.splitFirst? B.columns blocks' blocks')) :
    List.Forall₂ (A.SameTexts B) A.refine B.refine :=
  h.forall₂_settled step (settles_refine h.left) (settles_refine h.right)
    h.left.wellFormed.isPartition_halves h.forall₂_halves

theorem InStep.forall₂_refine (h : A.InStep B) :
    List.Forall₂ (A.SameTexts B) A.refine B.refine :=
  h.toCounterparts.forall₂_refine fun _ _ hblocks =>
    sameParts_splitFirst? hblocks fun _ _ _ _ _ _ hbd =>
      h.toCounterparts.sameParts_parts? hblocks hbd fun _ hc _ =>
        h.valuesOn_eq _ _ _ _ hbd fun _ hw => target_eq_of_forall₂ hblocks hw hc

/-! ### The minimal automata -/

/-- If the blocks of the refinements go together, the quotients by them differ by the difference of
the bases. -/
theorem Counterparts.isIsomorphism_quotientBy (h : A.Counterparts B)
    (together : List.Forall₂ (A.SameTexts B) A.refine B.refine) (base base' : State) :
    IsIsomorphism (· + (base' - base)) (A.quotientBy A.refine base)
      (B.quotientBy B.refine base') := by
  have left := h.left.isReachablePart_self h.left_reached
  have right := h.right.isReachablePart_self h.right_reached
  have hA := isCongruence_refine h.left
  have hB := isCongruence_refine h.right
  refine left.reduced_quotientBy.isIsomorphism_of_walk right.reduced_quotientBy h.alphabet ?_ ?_ ?_
  · intro w
    rw [hA.accepts_quotientBy h.left, hB.accepts_quotientBy h.right, h.accepts_iff]
  · intro q r _ _ same
    exact (Int.add_left_inj _).1 same
  · intro w hw
    have hw : A.Over w := hw
    rw [start_quotientBy, start_quotientBy,
      hA.walk_quotientBy h.left h.left.wellFormed.start_mem hw,
      hB.walk_quotientBy h.right h.right.wellFormed.start_mem (h.over_iff.2 hw)]
    show base' + (place B.refine (B.walk B.start w) : Int)
      = base + (place A.refine (A.walk A.start w) : Int) + (base' - base)
    rw [place_eq_of_forall₂ together hw, Int.add_right_comm, add_sub_cancel]

theorem InStep.isIsomorphism_quotientBy (h : A.InStep B) (base base' : State) :
    IsIsomorphism (· + (base' - base)) (A.quotientBy A.refine base)
      (B.quotientBy B.refine base') :=
  h.toCounterparts.isIsomorphism_quotientBy h.forall₂_refine base base'

end Automaton

end PatternAutomata
