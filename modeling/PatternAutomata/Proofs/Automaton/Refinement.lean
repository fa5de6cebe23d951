import PatternAutomata.Automaton.Partition
import PatternAutomata.Proofs.Automaton.Acceptance
import PatternAutomata.Proofs.Data.Outcome

/-!
# Partition refinement computes equivalence of states

The rounds of the refinement keep three things: the blocks are a partition of the states, states
that no text tells apart share a block, and the states of a block are all accepting or all not.
When no symbol splits a block any more, states that share a block are told apart by no text.

* `place` — the place of the block that holds a state;
* `IsPartition` — the blocks are not empty, share nothing and hold all states;
* `Equivalent` — no text over the alphabet tells two states apart;
* `Settles` — one list of blocks becomes another by rounds of splitting, and stays then;
* `settles_refine` — the bound on the number of rounds is never met;
* `Refines` — what every round keeps, and `Refines.splitFirst` — that it does;
* `together_refine_iff` — the blocks of the refinement are the classes of equivalent states;
* `WellFormed.tryRefine_spec`, `IsDfa.tryRefine_eq` — only a choice stops the refinement, and a
  deterministic automaton has none.
-/

namespace PatternAutomata

theorem findSome?_congr {α β : Type} {f g : α → Option β} {l : List α} (h : ∀ a ∈ l, f a = g a) :
    l.findSome? f = l.findSome? g := by
  induction l with
  | nil => rfl
  | cons a l ih =>
    rw [List.findSome?_cons, List.findSome?_cons, h a List.mem_cons_self,
      ih fun b hb => h b (List.mem_cons_of_mem a hb)]

/-! ### Places of blocks -/

/-- The place of the first block that holds a state. -/
def place (blocks : List Block) (q : State) : Nat := blocks.findIdx fun b => decide (q ∈ b)

/-- Some block holds both states. -/
def Together (blocks : List Block) (q r : State) : Prop := ∃ b ∈ blocks, q ∈ b ∧ r ∈ b

/-- No two blocks share a state. -/
def Apart (blocks : List Block) : Prop := blocks.Pairwise fun b d => ∀ q, q ∈ b → q ∉ d

variable {blocks pre post parts : List Block} {b d : Block} {q r s : State} {f : State → Nat}

theorem place_eq_of_mem {i : Nat} (apart : Apart blocks) (hi : i < blocks.length)
    (hq : q ∈ blocks[i]) : place blocks q = i := by
  show (blocks.findIdx fun b => decide (q ∈ b)) = i
  rw [List.findIdx_eq hi]
  refine ⟨decide_eq_true hq, ?_⟩
  intro j hj
  apply decide_eq_false
  intro earlier
  exact List.pairwise_iff_getElem.1 apart j i (by omega) hi hj q earlier hq

theorem together_iff_of_mem (apart : Apart blocks) (hb : b ∈ blocks) (hq : q ∈ b) :
    Together blocks q r ↔ r ∈ b := by
  constructor
  · intro h
    obtain ⟨d, hd, hqd, hrd⟩ := h
    obtain ⟨i, hi, rfl⟩ := List.getElem_of_mem hb
    obtain ⟨j, hj, rfl⟩ := List.getElem_of_mem hd
    have same : i = j := by
      rw [← place_eq_of_mem apart hi hq, ← place_eq_of_mem apart hj hqd]
    subst same
    exact hrd
  · intro h
    exact ⟨b, hb, hq, h⟩

/-- States have the same place exactly if they share a block. -/
theorem place_eq_place_iff (apart : Apart blocks) (hb : b ∈ blocks) (hq : q ∈ b) :
    place blocks q = place blocks r ↔ Together blocks q r := by
  obtain ⟨i, hi, rfl⟩ := List.getElem_of_mem hb
  rw [place_eq_of_mem apart hi hq]
  constructor
  · intro h
    refine ⟨blocks[i], hb, hq, ?_⟩
    have found : place blocks r < blocks.length := by omega
    have holds := List.findIdx_getElem (w := found)
    subst h
    exact of_decide_eq_true holds
  · intro h
    exact (place_eq_of_mem apart hi ((together_iff_of_mem apart hb hq).1 h)).symm

/-! ### The parts of a block -/

theorem mem_split_iff :
    d ∈ split f b ↔ ∃ q ∈ b.toList, d = b.filter fun r => decide (f r = f q) := by
  show d ∈ (valuesOn f b).map (fun n => b.filter fun q => decide (f q = n)) ↔ _
  rw [List.mem_map]
  constructor
  · intro h
    obtain ⟨n, hn, rfl⟩ := h
    obtain ⟨q, hq, rfl⟩ := List.mem_map.1 (mem_distinct.1 hn)
    exact ⟨q, hq, rfl⟩
  · intro h
    obtain ⟨q, hq, rfl⟩ := h
    exact ⟨f q, mem_distinct.2 (List.mem_map.2 ⟨q, hq, rfl⟩), rfl⟩

theorem exists_mem_of_mem_split (h : d ∈ split f b) : ∃ q, q ∈ d := by
  obtain ⟨q, hq, rfl⟩ := mem_split_iff.1 h
  exact ⟨q, SortedSet.mem_filter.2 ⟨hq, by simp⟩⟩

theorem mem_of_mem_split (h : d ∈ split f b) (hq : q ∈ d) : q ∈ b := by
  obtain ⟨_, _, rfl⟩ := mem_split_iff.1 h
  exact (SortedSet.mem_filter.1 hq).1

theorem exists_mem_split (hq : q ∈ b) : ∃ d ∈ split f b, q ∈ d :=
  ⟨_, mem_split_iff.2 ⟨q, hq, rfl⟩, SortedSet.mem_filter.2 ⟨hq, by simp⟩⟩

theorem apart_split (f : State → Nat) (b : Block) : Apart (split f b) := by
  show ((valuesOn f b).map fun n => b.filter fun q => decide (f q = n)).Pairwise
    fun b d => ∀ q, q ∈ b → q ∉ d
  rw [List.pairwise_map]
  refine (nodup_distinct _).imp ?_
  intro m n hmn q hm hn
  have left := (SortedSet.mem_filter.1 hm).2
  have right := (SortedSet.mem_filter.1 hn).2
  rw [decide_eq_true_eq] at left right
  exact hmn (left.symm.trans right)

theorem together_split_iff : Together (split f b) q r ↔ q ∈ b ∧ r ∈ b ∧ f q = f r := by
  constructor
  · intro h
    obtain ⟨d, hd, hq, hr⟩ := h
    obtain ⟨s, _, rfl⟩ := mem_split_iff.1 hd
    obtain ⟨hqb, hqs⟩ := SortedSet.mem_filter.1 hq
    obtain ⟨hrb, hrs⟩ := SortedSet.mem_filter.1 hr
    rw [decide_eq_true_eq] at hqs hrs
    exact ⟨hqb, hrb, hqs.trans hrs.symm⟩
  · intro h
    obtain ⟨hq, hr, same⟩ := h
    refine ⟨_, mem_split_iff.2 ⟨q, hq, rfl⟩, ?_, ?_⟩
    · exact SortedSet.mem_filter.2 ⟨hq, by simp⟩
    · exact SortedSet.mem_filter.2 ⟨hr, by simp [same]⟩

theorem length_split (f : State → Nat) (b : Block) :
    (split f b).length = (valuesOn f b).length := List.length_map _

theorem mem_valuesOn_iff {n : Nat} : n ∈ valuesOn f b ↔ ∃ q ∈ b.toList, f q = n := by
  show n ∈ distinct (b.toList.map f) ↔ _
  rw [mem_distinct, List.mem_map]

/-- The function has the same value on all members exactly if it has at most one value. -/
theorem length_valuesOn_le_one_iff :
    ¬ 1 < (valuesOn f b).length ↔ ∀ q r, q ∈ b → r ∈ b → f q = f r := by
  constructor
  · intro h q r hq hr
    have hq' : f q ∈ valuesOn f b := mem_valuesOn_iff.2 ⟨q, hq, rfl⟩
    have hr' : f r ∈ valuesOn f b := mem_valuesOn_iff.2 ⟨r, hr, rfl⟩
    match hv : valuesOn f b with
    | [] => rw [hv] at hq'; exact absurd hq' List.not_mem_nil
    | [n] =>
      rw [hv, List.mem_singleton] at hq' hr'
      rw [hq', hr']
    | m :: n :: l => rw [hv] at h; simp at h
  · intro h long
    have nodup : (valuesOn f b).Nodup := nodup_distinct _
    match hv : valuesOn f b with
    | [] => rw [hv] at long; simp at long
    | [n] => rw [hv] at long; simp at long
    | m :: n :: l =>
      obtain ⟨q, hq, rfl⟩ := mem_valuesOn_iff.1 (show m ∈ valuesOn f b by simp [hv])
      obtain ⟨r, hr, rfl⟩ := mem_valuesOn_iff.1 (show n ∈ valuesOn f b by simp [hv])
      rw [hv, h q r hq hr] at nodup
      simp at nodup

theorem length_valuesOn_le (f : State → Nat) (b : Block) : (valuesOn f b).length ≤ b.size := by
  have within : valuesOn f b ⊆ b.toList.map f := fun n hn => mem_distinct.1 hn
  have bound := (nodup_distinct (b.toList.map f)).length_le_of_subset within
  rw [List.length_map] at bound
  exact bound

/-- What holds of all states of all blocks also does after a block gave way to its parts. -/
theorem forall_mem_replace {P : State → Prop} (f : State → Nat)
    (h : ∀ d ∈ pre ++ b :: post, ∀ q, q ∈ d → P q) :
    ∀ d ∈ pre ++ split f b ++ post, ∀ q, q ∈ d → P q := by
  intro d hd q hq
  rcases List.mem_append.1 hd with hd | hd
  · rcases List.mem_append.1 hd with hd | hd
    · exact h d (List.mem_append_left _ hd) q hq
    · exact h b (by simp) q (mem_of_mem_split hd hq)
  · exact h d (by simp [hd]) q hq

/-- Parts depend on the values on the members alone. -/
theorem valuesOn_congr {g : State → Nat} (h : ∀ q, q ∈ b → f q = g q) :
    valuesOn f b = valuesOn g b := by
  show distinct (b.toList.map f) = distinct (b.toList.map g)
  rw [List.map_congr_left h]

theorem split_congr {g : State → Nat} (h : ∀ q, q ∈ b → f q = g q) : split f b = split g b := by
  unfold split
  rw [valuesOn_congr h]
  apply List.map_congr_left
  intro n _
  apply SortedSet.ext
  intro q
  rw [SortedSet.mem_filter, SortedSet.mem_filter]
  apply and_congr_right
  intro hq
  rw [h q hq]

namespace Automaton

variable {A : Automaton} {c : Symbol} {w : Text} {finer settled : List Block}

/-! ### One round of splitting -/

/-- The place of the block that a symbol leads to. -/
def target (A : Automaton) (blocks : List Block) (c : Symbol) (q : State) : Nat :=
  place blocks (A.advance q c)

/-- The first symbol that leads from a block to several blocks splits it. -/
theorem IsDfa.parts?_eq (hA : A.IsDfa) (hb : b ⊆ A.states) :
    A.parts? A.columns blocks b = A.alphabet.toList.findSome? fun c =>
      if 1 < (valuesOn (A.target blocks c) b).length then some (split (A.target blocks c) b)
      else none := by
  have signature : ∀ c ∈ A.alphabet.toList, ∀ q, q ∈ b →
      A.signature blocks ⟨c, tabulated A.states.toList fun q => A.successor? q c⟩ q
        = A.target blocks c q := by
    intro c hc q hq
    rw [signature_eq (List.mem_map.2 ⟨c, hc, rfl⟩), hA.successor?_eq (hb q hq) hc]
    rfl
  unfold parts? columns
  rw [List.findSome?_map]
  apply findSome?_congr
  intro c hc
  rw [Function.comp_apply, valuesOn_congr (signature c hc), split_congr (signature c hc)]

theorem splitFirst?_eq_some {columns : List Column} {rest : List Block}
    (h : A.splitFirst? columns blocks rest = some finer) :
    ∃ pre b parts post, rest = pre ++ b :: post ∧ (∀ d ∈ pre, A.parts? columns blocks d = none) ∧
      A.parts? columns blocks b = some parts ∧ finer = pre ++ parts ++ post := by
  induction rest generalizing finer with
  | nil => cases h
  | cons d rest ih =>
    rw [splitFirst?] at h
    split at h
    · next parts hparts =>
      cases h
      exact ⟨[], d, parts, rest, rfl, by simp, hparts, rfl⟩
    · next hnone =>
      obtain ⟨finer, hf, rfl⟩ := Option.map_eq_some_iff.1 h
      obtain ⟨pre, b, parts, post, rfl, before, hparts, rfl⟩ := ih hf
      exact ⟨d :: pre, b, parts, post, rfl, List.forall_mem_cons.2 ⟨hnone, before⟩, hparts, rfl⟩

/-- The first block that is split is replaced. -/
theorem splitFirst?_of_first {columns : List Column} {pre parts : List Block} {b : Block}
    (before : ∀ d ∈ pre, A.parts? columns blocks d = none)
    (hparts : A.parts? columns blocks b = some parts) (post : List Block) :
    A.splitFirst? columns blocks (pre ++ b :: post) = some (pre ++ parts ++ post) := by
  induction pre with
  | nil =>
    show A.splitFirst? columns blocks (b :: post) = some (parts ++ post)
    rw [splitFirst?, hparts]
  | cons d pre ih =>
    rw [List.forall_mem_cons] at before
    rw [List.cons_append, splitFirst?, before.1, ih before.2]
    rfl

theorem splitFirst?_eq_none_iff {columns : List Column} {rest : List Block} :
    A.splitFirst? columns blocks rest = none ↔
      ∀ b ∈ rest, A.parts? columns blocks b = none := by
  induction rest with
  | nil => simp [splitFirst?]
  | cons d rest ih =>
    rw [splitFirst?, List.forall_mem_cons]
    split
    · next parts hparts => simp [hparts]
    · next hnone => simp [hnone, ih]

/-! ### Partitions -/

/-- The blocks are not empty, share nothing and hold exactly the states. -/
structure IsPartition (A : Automaton) (blocks : List Block) : Prop where
  nonempty : ∀ b ∈ blocks, ∃ q, q ∈ b
  apart : Apart blocks
  mem_states_iff : ∀ q, q ∈ A.states ↔ ∃ b ∈ blocks, q ∈ b

theorem IsPartition.subset (h : A.IsPartition blocks) (hb : b ∈ blocks) : b ⊆ A.states := by
  intro q hq
  exact (h.mem_states_iff q).2 ⟨b, hb, hq⟩

theorem IsPartition.place_eq_place_iff (h : A.IsPartition blocks) (hq : q ∈ A.states) :
    place blocks q = place blocks r ↔ Together blocks q r := by
  obtain ⟨b, hb, hqb⟩ := (h.mem_states_iff q).1 hq
  exact PatternAutomata.place_eq_place_iff h.apart hb hqb

/-- There are at most as many blocks as states. -/
theorem IsPartition.length_le (h : A.IsPartition blocks) : blocks.length ≤ A.states.size := by
  have member : ∀ b ∈ blocks, b.toList.headD 0 ∈ b := by
    intro b hb
    obtain ⟨q, hq⟩ := h.nonempty b hb
    obtain ⟨r, head, hr⟩ := SortedSet.exists_head?_of_mem hq
    rw [List.headD_eq_head?_getD, head]
    exact hr
  have nodup : (blocks.map fun b => b.toList.headD 0).Nodup := by
    show (blocks.map fun b => b.toList.headD 0).Pairwise (· ≠ ·)
    rw [List.pairwise_map]
    refine h.apart.imp_of_mem ?_
    intro b d hb hd disjoint same
    exact disjoint _ (member b hb) (same ▸ member d hd)
  have within : (blocks.map fun b => b.toList.headD 0) ⊆ A.states.toList := by
    intro q hq
    obtain ⟨b, hb, rfl⟩ := List.mem_map.1 hq
    exact h.subset hb _ (member b hb)
  have bound := nodup.length_le_of_subset within
  rw [List.length_map] at bound
  exact bound

/-- Replacing a block by its parts keeps a partition. -/
theorem IsPartition.replace (h : A.IsPartition (pre ++ b :: post)) (f : State → Nat) :
    A.IsPartition (pre ++ split f b ++ post) where
  nonempty := by
    intro d hd
    rcases List.mem_append.1 hd with hd | hd
    · rcases List.mem_append.1 hd with hd | hd
      · exact h.nonempty d (by simp [hd])
      · exact exists_mem_of_mem_split hd
    · exact h.nonempty d (by simp [hd])
  apart := by
    obtain ⟨left, right, across⟩ := List.pairwise_append.1 h.apart
    obtain ⟨hb, right⟩ := List.pairwise_cons.1 right
    refine List.pairwise_append.2 ⟨List.pairwise_append.2 ⟨left, apart_split f b, ?_⟩, right, ?_⟩
    · intro x hx d hd q hq hqd
      exact across x hx b List.mem_cons_self q hq (mem_of_mem_split hd hqd)
    · intro x hx d hd q hq
      rcases List.mem_append.1 hx with hx | hx
      · exact across x hx d (List.mem_cons_of_mem b hd) q hq
      · exact hb d hd q (mem_of_mem_split hx hq)
  mem_states_iff := by
    intro q
    rw [h.mem_states_iff q]
    constructor
    · intro hq
      obtain ⟨d, hd, hqd⟩ := hq
      rcases List.mem_append.1 hd with hd | hd
      · exact ⟨d, by simp [hd], hqd⟩
      · rcases List.mem_cons.1 hd with rfl | hd
        · obtain ⟨e, he, hqe⟩ := exists_mem_split (f := f) hqd
          exact ⟨e, by simp [he], hqe⟩
        · exact ⟨d, by simp [hd], hqd⟩
    · intro hq
      obtain ⟨d, hd, hqd⟩ := hq
      rcases List.mem_append.1 hd with hd | hd
      · rcases List.mem_append.1 hd with hd | hd
        · exact ⟨d, by simp [hd], hqd⟩
        · exact ⟨b, by simp, mem_of_mem_split hd hqd⟩
      · exact ⟨d, by simp [hd], hqd⟩

/-- After the replacement two states share a block if they did and the parts do not separate
them. -/
theorem together_replace_iff :
    Together (pre ++ split f b ++ post) q r ↔
      Together (pre ++ post) q r ∨ q ∈ b ∧ r ∈ b ∧ f q = f r := by
  rw [← together_split_iff]
  show (∃ d ∈ pre ++ split f b ++ post, q ∈ d ∧ r ∈ d) ↔
    (∃ d ∈ pre ++ post, q ∈ d ∧ r ∈ d) ∨ ∃ d ∈ split f b, q ∈ d ∧ r ∈ d
  simp only [List.mem_append, or_and_right, exists_or]
  exact or_right_comm

/-! ### Rounds of splitting until nothing is split -/

/-- A round replaces one block by its parts under one symbol, of which there are several. -/
theorem IsPartition.exists_of_splitFirst? (h : A.IsPartition blocks) (hA : A.IsDfa)
    (hs : A.splitFirst? A.columns blocks blocks = some finer) :
    ∃ pre b c post, blocks = pre ++ b :: post ∧ c ∈ A.alphabet.toList ∧
      1 < (valuesOn (A.target blocks c) b).length ∧
      finer = pre ++ split (A.target blocks c) b ++ post := by
  obtain ⟨pre, b, parts, post, shape, _, hparts, rfl⟩ := splitFirst?_eq_some hs
  have hb : b ∈ blocks := by simp [shape]
  rw [hA.parts?_eq (h.subset hb)] at hparts
  obtain ⟨c, hc, hsplit⟩ := List.exists_of_findSome?_eq_some hparts
  split at hsplit
  · next long =>
    cases hsplit
    exact ⟨pre, b, c, post, shape, hc, long, rfl⟩
  · cases hsplit

/-- No block is split exactly if every symbol leads from each block to one block. -/
theorem IsPartition.splitFirst?_eq_none_iff (h : A.IsPartition blocks) (hA : A.IsDfa) :
    A.splitFirst? A.columns blocks blocks = none ↔
      ∀ b ∈ blocks, ∀ c ∈ A.alphabet.toList, ∀ q r, q ∈ b → r ∈ b →
        A.target blocks c q = A.target blocks c r := by
  rw [Automaton.splitFirst?_eq_none_iff]
  apply forall₂_congr
  intro b hb
  rw [hA.parts?_eq (h.subset hb), List.findSome?_eq_none_iff]
  apply forall₂_congr
  intro c _
  rw [← length_valuesOn_le_one_iff]
  simp

/-- Rounds of splitting lead from the first list of blocks to the second, where they end. -/
inductive Settles (A : Automaton) : List Block → List Block → Prop where
  | done {blocks : List Block} : A.splitFirst? A.columns blocks blocks = none →
      Settles A blocks blocks
  | round {blocks finer settled : List Block} :
      A.splitFirst? A.columns blocks blocks = some finer → Settles A finer settled →
      Settles A blocks settled

theorem Settles.splitFirst?_eq_none (h : A.Settles blocks settled) :
    A.splitFirst? A.columns settled settled = none := by
  induction h with
  | done stable => exact stable
  | round _ _ ih => exact ih

theorem IsPartition.splitFirst (h : A.IsPartition blocks) (hA : A.IsDfa)
    (hs : A.splitFirst? A.columns blocks blocks = some finer) :
    A.IsPartition finer ∧ blocks.length < finer.length := by
  obtain ⟨pre, b, c, post, rfl, _, long, rfl⟩ := h.exists_of_splitFirst? hA hs
  refine ⟨h.replace _, ?_⟩
  simp only [List.length_append, List.length_cons, length_split]
  omega

/-- Every round makes one more block at least, so the bound on the rounds is never met. -/
theorem IsPartition.settles_refineFrom (h : A.IsPartition blocks) (hA : A.IsDfa) {rounds : Nat}
    (bound : A.states.size ≤ rounds + blocks.length) :
    A.Settles blocks (A.refineFrom A.columns rounds blocks) := by
  induction rounds generalizing blocks with
  | zero =>
    cases hs : A.splitFirst? A.columns blocks blocks with
    | none => exact .done hs
    | some finer =>
      obtain ⟨hfiner, longer⟩ := h.splitFirst hA hs
      have most := hfiner.length_le
      omega
  | succ rounds ih =>
    rw [refineFrom]
    cases hs : A.splitFirst? A.columns blocks blocks with
    | none => exact .done hs
    | some finer =>
      obtain ⟨hfiner, longer⟩ := h.splitFirst hA hs
      exact .round hs (ih hfiner (by omega))

/-! ### The first partition -/

theorem mem_halves_iff : b ∈ A.halves ↔
    (b = A.accepting ∨ b = A.states.sdiff A.accepting) ∧ ∃ q, q ∈ b := by
  unfold halves
  rw [List.mem_filter, List.mem_cons, List.mem_singleton, Bool.not_eq_true',
    SortedSet.isEmpty_eq_false_iff]

theorem WellFormed.together_halves_iff (hA : A.WellFormed) :
    Together A.halves q r ↔
      q ∈ A.states ∧ r ∈ A.states ∧ (q ∈ A.accepting ↔ r ∈ A.accepting) := by
  constructor
  · intro h
    obtain ⟨b, hb, hq, hr⟩ := h
    rcases (mem_halves_iff.1 hb).1 with rfl | rfl
    · exact ⟨hA.accepting_subset q hq, hA.accepting_subset r hr, iff_of_true hq hr⟩
    · obtain ⟨hqs, hqn⟩ := SortedSet.mem_sdiff.1 hq
      obtain ⟨hrs, hrn⟩ := SortedSet.mem_sdiff.1 hr
      exact ⟨hqs, hrs, iff_of_false hqn hrn⟩
  · intro h
    obtain ⟨hq, hr, same⟩ := h
    by_cases hacc : q ∈ A.accepting
    · exact ⟨_, mem_halves_iff.2 ⟨Or.inl rfl, q, hacc⟩, hacc, same.1 hacc⟩
    · have hq' := SortedSet.mem_sdiff.2 ⟨hq, hacc⟩
      have hr' := SortedSet.mem_sdiff.2 ⟨hr, fun h => hacc (same.2 h)⟩
      exact ⟨_, mem_halves_iff.2 ⟨Or.inr rfl, q, hq'⟩, hq', hr'⟩

theorem WellFormed.isPartition_halves (hA : A.WellFormed) : A.IsPartition A.halves where
  nonempty := fun b hb => (mem_halves_iff.1 hb).2
  apart := by
    unfold Apart halves
    apply List.Pairwise.filter
    rw [List.pairwise_pair]
    intro q hq hs
    exact (SortedSet.mem_sdiff.1 hs).2 hq
  mem_states_iff := by
    intro q
    constructor
    · intro hq
      obtain ⟨b, hb, hqb, _⟩ := hA.together_halves_iff.2 ⟨hq, hq, Iff.rfl⟩
      exact ⟨b, hb, hqb⟩
    · intro h
      obtain ⟨b, hb, hq⟩ := h
      exact (hA.together_halves_iff.1 ⟨b, hb, hq, hq⟩).1

theorem settles_refine (hA : A.IsDfa) : A.Settles A.halves A.refine :=
  hA.wellFormed.isPartition_halves.settles_refineFrom hA (by omega)

/-! ### What every round keeps -/

/-- No text over the alphabet tells the two states apart. -/
def Equivalent (A : Automaton) (q r : State) : Prop :=
  ∀ w, A.Over w → (A.walk q w ∈ A.accepting ↔ A.walk r w ∈ A.accepting)

theorem Equivalent.advance (h : A.Equivalent q r) (hc : c ∈ A.alphabet) :
    A.Equivalent (A.advance q c) (A.advance r c) :=
  fun w hw => h (c :: w) (over_cons.2 ⟨hc, hw⟩)

/-- The blocks are a partition, states that no text tells apart share a block, and states that share
a block are both accepting or both not. -/
structure Refines (A : Automaton) (blocks : List Block) : Prop where
  isPartition : A.IsPartition blocks
  together : ∀ q r, q ∈ A.states → r ∈ A.states → A.Equivalent q r → Together blocks q r
  accepting_iff : ∀ q r, Together blocks q r → (q ∈ A.accepting ↔ r ∈ A.accepting)

theorem WellFormed.refines_halves (hA : A.WellFormed) : A.Refines A.halves where
  isPartition := hA.isPartition_halves
  together := by
    intro q r hq hr same
    exact hA.together_halves_iff.2 ⟨hq, hr, same [] (over_nil A)⟩
  accepting_iff := fun q r h => (hA.together_halves_iff.1 h).2.2

/-- A round separates only states that some text tells apart. -/
theorem Refines.splitFirst (h : A.Refines blocks) (hA : A.IsDfa)
    (hs : A.splitFirst? A.columns blocks blocks = some finer) : A.Refines finer := by
  obtain ⟨pre, b, c, post, rfl, hc, _, rfl⟩ := h.isPartition.exists_of_splitFirst? hA hs
  refine ⟨h.isPartition.replace _, ?_, ?_⟩
  · intro q r hq hr same
    rw [together_replace_iff]
    obtain ⟨d, hd, hqd, hrd⟩ := h.together q r hq hr same
    rcases List.mem_append.1 hd with hd | hd
    · exact Or.inl ⟨d, List.mem_append_left _ hd, hqd, hrd⟩
    · rcases List.mem_cons.1 hd with rfl | hd
      · refine Or.inr ⟨hqd, hrd, ?_⟩
        have hq' := hA.advance_mem hq hc
        have hr' := hA.advance_mem hr hc
        exact (h.isPartition.place_eq_place_iff hq').2 (h.together _ _ hq' hr' (same.advance hc))
      · exact Or.inl ⟨d, List.mem_append_right _ hd, hqd, hrd⟩
  · intro q r hqr
    apply h.accepting_iff
    rcases together_replace_iff.1 hqr with ⟨d, hd, hq, hr⟩ | ⟨hq, hr, _⟩
    · refine ⟨d, ?_, hq, hr⟩
      rcases List.mem_append.1 hd with hd | hd
      · exact List.mem_append_left _ hd
      · exact List.mem_append_right _ (List.mem_cons_of_mem b hd)
    · exact ⟨b, by simp, hq, hr⟩

theorem Settles.refines (h : A.Settles blocks settled) (hA : A.IsDfa) (start : A.Refines blocks) :
    A.Refines settled := by
  induction h with
  | done _ => exact start
  | round hs _ ih => exact ih (start.splitFirst hA hs)

theorem refines_refine (hA : A.IsDfa) : A.Refines A.refine :=
  (settles_refine hA).refines hA hA.wellFormed.refines_halves

/-! ### The last partition -/

/-- When no block is split any more, states that share a block stay together. -/
theorem IsPartition.together_walk (h : A.IsPartition blocks) (hA : A.IsDfa)
    (stable : A.splitFirst? A.columns blocks blocks = none) (hqr : Together blocks q r)
    (hw : A.Over w) : Together blocks (A.walk q w) (A.walk r w) := by
  induction w generalizing q r with
  | nil => exact hqr
  | cons c w ih =>
    obtain ⟨hc, hw⟩ := over_cons.1 hw
    obtain ⟨b, hb, hq, hr⟩ := hqr
    have same := (h.splitFirst?_eq_none_iff hA).1 stable b hb c hc q r hq hr
    have mem := hA.advance_mem (h.subset hb q hq) hc
    exact ih ((h.place_eq_place_iff mem).1 same) hw

/-- Two states share a block of the refinement exactly if no text tells them apart. -/
theorem together_refine_iff (hA : A.IsDfa) (hq : q ∈ A.states) (hr : r ∈ A.states) :
    Together A.refine q r ↔ A.Equivalent q r := by
  have refines := refines_refine hA
  constructor
  · intro h w hw
    exact refines.accepting_iff _ _ (refines.isPartition.together_walk hA
      (settles_refine hA).splitFirst?_eq_none h hw)
  · exact refines.together q r hq hr

/-! ### Automata with choices -/

/-- The report that a symbol leads from a state to no state or to several. -/
def IsChoice (A : Automaton) (v : Violation) : Prop :=
  ∃ q ∈ A.states, ∃ c ∈ A.alphabet, (A.ends q (some c)).size ≠ 1 ∧ v = .ambiguousStep q c

theorem size_ne_one_of_successor?_eq_none (h : A.successor? q c = none) :
    (A.ends q (some c)).size ≠ 1 := by
  intro single
  obtain ⟨r, only⟩ := List.length_eq_one_iff.1 single
  rw [successor?, only?, only] at h
  cases h

theorem isChoice_of_choice?_eq_some {column : Column} {v : Violation} (hb : b ⊆ A.states)
    (mem : column ∈ A.columns) (h : A.choice? column b = some v) : A.IsChoice v := by
  obtain ⟨q, found, rfl⟩ := Option.map_eq_some_iff.1 h
  have none := List.find?_some found
  rw [targetIn?_eq mem, Option.isNone_iff_eq_none] at none
  obtain ⟨c, hc, rfl⟩ := List.mem_map.1 mem
  exact ⟨q, hb q (List.mem_of_find?_eq_some found), c, hc,
    size_ne_one_of_successor?_eq_none none, rfl⟩

/-- A block of one state has no parts. -/
theorem parts?_eq_none_of_size_lt (columns : List Column) (blocks : List Block) (h : b.size < 2) :
    A.parts? columns blocks b = none := by
  rw [parts?, List.findSome?_eq_none_iff]
  intro column _
  have few := length_valuesOn_le (A.signature blocks column) b
  exact if_neg (by omega)

theorem tryParts_spec (blocks : List Block) (hb : b ⊆ A.states) :
    GivesOrFails A.IsChoice (A.parts? A.columns blocks b) (A.tryParts A.columns blocks b) := by
  unfold tryParts
  by_cases small : b.size < 2
  · rw [if_pos small, parts?_eq_none_of_size_lt _ _ small]
    exact .gives
  · rw [if_neg small]
    apply GivesOrFails.findSomeM?
    intro column mem
    cases stuck : A.choice? column b with
    | some v => exact .fails (isChoice_of_choice?_eq_some hb mem stuck)
    | none => exact .gives

theorem trySplitFirst_spec (blocks : List Block) {rest : List Block}
    (within : ∀ b ∈ rest, b ⊆ A.states) :
    GivesOrFails A.IsChoice (A.splitFirst? A.columns blocks rest)
      (A.trySplitFirst A.columns blocks rest) := by
  induction rest with
  | nil => exact .gives
  | cons b rest ih =>
    obtain ⟨hb, later⟩ := List.forall_mem_cons.1 within
    rw [splitFirst?, trySplitFirst]
    refine (tryParts_spec blocks hb).bind ?_
    cases A.parts? A.columns blocks b with
    | some parts => exact .gives
    | none => exact (ih later).bind .gives

theorem tryRefineFrom_spec (rounds : Nat) {blocks : List Block}
    (within : ∀ b ∈ blocks, b ⊆ A.states) :
    GivesOrFails A.IsChoice (A.refineFrom A.columns rounds blocks)
      (A.tryRefineFrom A.columns rounds blocks) := by
  induction rounds generalizing blocks with
  | zero => exact .gives
  | succ rounds ih =>
    rw [refineFrom, tryRefineFrom]
    refine (trySplitFirst_spec blocks within).bind ?_
    cases hs : A.splitFirst? A.columns blocks blocks with
    | none => exact .gives
    | some finer =>
      obtain ⟨pre, b, parts, post, rfl, _, hparts, rfl⟩ := splitFirst?_eq_some hs
      obtain ⟨column, _, hsplit⟩ := List.exists_of_findSome?_eq_some hparts
      split at hsplit
      · cases hsplit
        exact ih (forall_mem_replace _ within)
      · cases hsplit

/-- The refinement of a well-formed automaton gives the blocks, or stops at a state from which a
symbol leads to no state or to several. -/
theorem WellFormed.tryRefine_spec (hA : A.WellFormed) :
    A.tryRefine = .ok A.refine ∨ ∃ q ∈ A.states, ∃ c ∈ A.alphabet,
      (A.ends q (some c)).size ≠ 1 ∧ A.tryRefine = .error (.ambiguousStep q c) := by
  have spec := tryRefineFrom_spec A.states.size fun _ hb => hA.isPartition_halves.subset hb
  unfold tryRefine refine
  generalize A.tryRefineFrom A.columns A.states.size A.halves = outcome at spec ⊢
  cases spec with
  | gives => exact Or.inl rfl
  | fails choice =>
    obtain ⟨q, hq, c, hc, several, rfl⟩ := choice
    exact Or.inr ⟨q, hq, c, hc, several, rfl⟩

/-- So the refinement of a deterministic automaton always gives the blocks. -/
theorem IsDfa.tryRefine_eq (hA : A.IsDfa) : A.tryRefine = .ok A.refine := by
  rcases hA.wellFormed.tryRefine_spec with gives | ⟨q, hq, c, hc, several, _⟩
  · exact gives
  · exact absurd ((hA.wellFormed.deterministic hA.kind).size_ends q hq c hc) several

end Automaton

end PatternAutomata
