import Mathlib.Data.List.Basic
import PatternAutomata.Proofs.Automaton.Refinement

/-!
# The order of the blocks

A round puts the parts of a block in its place.  So states that stand in different blocks stay in
this order down to the last partition, and the last partition tells in which order the parts of any
earlier block stand.

* `place_append_of_mem`, `place_append_of_not_mem`, `place_split` — places of states;
* `KeepsOrder` — states in different blocks stay in their order;
* `keepsOrder_replace`, `Settles.keepsOrder` — replacing a block by its parts, and all rounds, do so;
* `KeepsOrder.idxOf_le` — the order of the parts of a block.
-/

namespace PatternAutomata

variable {blocks rest pre post parts finer final : List Block} {b : Block} {q r : State}
  {f : State → Nat}

/-! ### Places -/

theorem place_lt_length_iff : place blocks q < blocks.length ↔ ∃ b ∈ blocks, q ∈ b := by
  unfold place
  rw [List.findIdx_lt_length]
  simp only [decide_eq_true_eq]

theorem place_append_of_mem (h : ∃ b ∈ blocks, q ∈ b) :
    place (blocks ++ rest) q = place blocks q := by
  have found := place_lt_length_iff.2 h
  unfold place at found ⊢
  rw [List.findIdx_append, if_pos found]

theorem place_append_of_not_mem (h : ¬ ∃ b ∈ blocks, q ∈ b) :
    place (blocks ++ rest) q = blocks.length + place rest q := by
  have missed := mt place_lt_length_iff.1 h
  unfold place at missed ⊢
  rw [List.findIdx_append, if_neg missed, Nat.add_comm]

theorem place_cons_of_mem (h : q ∈ b) : place (b :: rest) q = 0 := by
  unfold place
  rw [List.findIdx_cons, decide_eq_true h]
  rfl

theorem place_cons_of_not_mem (h : q ∉ b) : place (b :: rest) q = place rest q + 1 := by
  unfold place
  rw [List.findIdx_cons, decide_eq_false h]
  rfl

/-- The parts of a block stand in the order of the values. -/
theorem place_split (hq : q ∈ b) : place (split f b) q = (valuesOn f b).idxOf (f q) := by
  unfold place split
  rw [List.findIdx_map, List.idxOf]
  congr 1
  funext n
  rw [Function.comp_apply, Bool.eq_iff_iff, decide_eq_true_eq, SortedSet.mem_filter,
    decide_eq_true_eq, beq_iff_eq, and_iff_right hq, eq_comm]

/-! ### States in different blocks -/

/-- States in different blocks stay in their order. -/
def KeepsOrder (blocks finer : List Block) : Prop :=
  ∀ q r, place blocks q < place blocks r → place finer q < place finer r

theorem KeepsOrder.refl (blocks : List Block) : KeepsOrder blocks blocks := fun _ _ less => less

theorem KeepsOrder.trans (h : KeepsOrder blocks finer) (k : KeepsOrder finer final) :
    KeepsOrder blocks final := fun q r less => k q r (h q r less)

/-- Parts that stand in the place of a block keep states of different blocks in their order. -/
theorem keepsOrder_replace (same : ∀ q, (∃ d ∈ parts, q ∈ d) ↔ q ∈ b) :
    KeepsOrder (pre ++ b :: post) (pre ++ parts ++ post) := by
  intro q r less
  rw [List.append_assoc]
  -- a state stands before the block, in it, or after it
  by_cases hq : ∃ d ∈ pre, q ∈ d
  · have early := place_lt_length_iff.2 hq
    rw [place_append_of_mem hq] at less ⊢
    by_cases hr : ∃ d ∈ pre, r ∈ d
    · rwa [place_append_of_mem hr] at less ⊢
    · rw [place_append_of_not_mem hr]
      omega
  · rw [place_append_of_not_mem hq] at less ⊢
    by_cases hr : ∃ d ∈ pre, r ∈ d
    · have early := place_lt_length_iff.2 hr
      rw [place_append_of_mem hr] at less
      omega
    · rw [place_append_of_not_mem hr] at less ⊢
      by_cases hrb : r ∈ b
      · rw [place_cons_of_mem hrb] at less
        omega
      · rw [place_append_of_not_mem (mt (same r).1 hrb)]
        rw [place_cons_of_not_mem hrb] at less
        by_cases hqb : q ∈ b
        · have early := place_lt_length_iff.2 ((same q).2 hqb)
          rw [place_append_of_mem ((same q).2 hqb)]
          omega
        · rw [place_append_of_not_mem (mt (same q).1 hqb)]
          rw [place_cons_of_not_mem hqb] at less
          omega

theorem exists_mem_split_iff : (∃ d ∈ split f b, q ∈ d) ↔ q ∈ b := by
  constructor
  · rintro ⟨d, hd, hq⟩
    exact mem_of_mem_split hd hq
  · exact exists_mem_split

/-- If the order of the parts of a block is kept, they stand in the order of the values. -/
theorem KeepsOrder.idxOf_le (h : KeepsOrder (pre ++ split f b ++ post) final)
    (hq : q ∈ b) (hr : r ∈ b) (newQ : ¬ ∃ d ∈ pre, q ∈ d) (newR : ¬ ∃ d ∈ pre, r ∈ d)
    (less : place final q < place final r) :
    (valuesOn f b).idxOf (f q) ≤ (valuesOn f b).idxOf (f r) := by
  have places : ∀ s, s ∈ b → (¬ ∃ d ∈ pre, s ∈ d) →
      place (pre ++ split f b ++ post) s = pre.length + (valuesOn f b).idxOf (f s) := by
    intro s hs new
    rw [List.append_assoc, place_append_of_not_mem new,
      place_append_of_mem (exists_mem_split_iff.2 hs), place_split hs]
  by_contra later
  have earlier : place (pre ++ split f b ++ post) r < place (pre ++ split f b ++ post) q := by
    rw [places r hr newR, places q hq newQ]
    omega
  exact Nat.lt_asymm less (h r q earlier)

namespace Automaton

variable {A : Automaton} {settled : List Block}

/-- All rounds keep states of different blocks in their order. -/
theorem Settles.keepsOrder (h : A.Settles blocks settled) (hA : A.IsDfa)
    (partition : A.IsPartition blocks) : KeepsOrder blocks settled := by
  induction h with
  | done _ => exact .refl _
  | round hs _ ih =>
    obtain ⟨pre, b, c, post, rfl, _, _, rfl⟩ := partition.exists_of_splitFirst? hA hs
    exact (keepsOrder_replace fun _ => exists_mem_split_iff).trans (ih (partition.replace _))

end Automaton

end PatternAutomata
