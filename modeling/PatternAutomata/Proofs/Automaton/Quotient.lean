import PatternAutomata.Automaton.Minimal
import PatternAutomata.Proofs.Automaton.Assembly
import PatternAutomata.Proofs.Automaton.Refinement

/-!
# The quotient by a partition

If states that share a block stay together under every symbol and are both accepting or both not,
the quotient is a deterministic automaton that goes from block to block as the given one goes from
state to state, whatever members stand for the blocks.

* `IsCongruence` — partitions of this kind; `isCongruence_refine` — the refinement is one;
* `blockNumber` — the state of the quotient for the block of a state;
* `quotientBy` — the quotient as it is put together;
* `isDfa_quotientBy`, `walk_quotientBy`, `accepts_quotientBy` — what it is, where it goes and what
  it accepts.
-/

namespace PatternAutomata

namespace Automaton

variable {A : Automaton} {blocks : List Block} {b : Block} {q r base : State} {c : Symbol}
  {w : Text}

/-- A partition whose blocks every symbol leads to one block, and whose members are both accepting
or both not. -/
structure IsCongruence (A : Automaton) (blocks : List Block) : Prop where
  isPartition : A.IsPartition blocks
  together_advance : ∀ q r c, c ∈ A.alphabet → Together blocks q r →
    Together blocks (A.advance q c) (A.advance r c)
  accepting_iff : ∀ q r, Together blocks q r → (q ∈ A.accepting ↔ r ∈ A.accepting)

theorem isCongruence_refine (hA : A.IsDfa) : A.IsCongruence A.refine where
  isPartition := (refines_refine hA).isPartition
  together_advance := by
    intro q r c hc h
    exact (refines_refine hA).isPartition.together_walk hA
      (settles_refine hA).splitFirst?_eq_none h (over_cons.2 ⟨hc, over_nil A⟩)
  accepting_iff := (refines_refine hA).accepting_iff

/-- The state of the quotient that stands for the block of `q`. -/
def blockNumber (blocks : List Block) (base : State) (q : State) : State :=
  base + place blocks q

theorem IsPartition.blockNumber_eq_iff (h : A.IsPartition blocks) (hq : q ∈ A.states) :
    blockNumber blocks base q = blockNumber blocks base r ↔ Together blocks q r := by
  rw [← h.place_eq_place_iff hq]
  show base + (place blocks q : Int) = base + (place blocks r : Int) ↔ _
  constructor
  · intro same
    exact Int.ofNat_inj.1 (Int.add_left_cancel same)
  · intro same
    rw [same]

/-- A block is numbered by its place. -/
theorem IsPartition.idxOf_eq_place (h : A.IsPartition blocks) (hb : b ∈ blocks) (hq : q ∈ b) :
    blocks.idxOf b = place blocks q := by
  have bound := List.idxOf_lt_length_of_mem hb
  refine (place_eq_of_mem h.apart bound ?_).symm
  rw [List.getElem_idxOf bound]
  exact hq

/-! ### The transition table of the quotient -/

/-- The quotient by a partition as it is put together. -/
def quotientBy (A : Automaton) (blocks : List Block) (base : State) : Automaton :=
  (A.quotient blocks base).compact

/-- The entries of the table: one member of each block stands for the block. -/
theorem IsPartition.mem_quotientTable_iff (h : A.IsPartition blocks) (hA : A.IsDfa)
    {origin : Origin} {ends : SortedSet State} :
    (origin, ends) ∈ (blocks.flatMap fun b => b.toList.head?.toList.flatMap fun q =>
        A.alphabet.toList.map fun c => ((⟨base + blocks.idxOf b, some c⟩ : Origin),
          (A.ends q (some c)).map (blockNumber blocks base))) ↔
      ∃ b ∈ blocks, ∃ q, b.toList.head? = some q ∧ ∃ c ∈ A.alphabet.toList,
        origin = ⟨blockNumber blocks base q, some c⟩ ∧
          ends = .singleton (blockNumber blocks base (A.advance q c)) := by
  have entry : ∀ b ∈ blocks, ∀ q, b.toList.head? = some q → ∀ c ∈ A.alphabet.toList,
      base + (blocks.idxOf b : Int) = blockNumber blocks base q ∧
        (A.ends q (some c)).map (blockNumber blocks base)
          = .singleton (blockNumber blocks base (A.advance q c)) := by
    intro b hb q hq c hc
    have member : q ∈ b := List.mem_of_head? hq
    rw [h.idxOf_eq_place hb member, hA.ends_some (h.subset hb q member) hc]
    exact ⟨rfl, rfl⟩
  simp only [List.mem_flatMap, List.mem_map, Option.mem_toList, Prod.mk.injEq]
  constructor
  · intro h
    obtain ⟨b, hb, q, hq, c, hc, rfl, rfl⟩ := h
    obtain ⟨number, image⟩ := entry b hb q hq c hc
    rw [number, image]
    exact ⟨b, hb, q, hq, c, hc, rfl, rfl⟩
  · intro h
    obtain ⟨b, hb, q, hq, c, hc, rfl, rfl⟩ := h
    obtain ⟨number, image⟩ := entry b hb q hq c hc
    rw [← number, ← image]
    exact ⟨b, hb, q, hq, c, hc, rfl, rfl⟩

/-- Whichever member stands for its block, the symbol leads to the same block. -/
theorem IsCongruence.ends_quotient_some (h : A.IsCongruence blocks) (hA : A.IsDfa)
    (hq : q ∈ A.states) (hc : c ∈ A.alphabet) :
    (A.quotient blocks base).ends (blockNumber blocks base q) (some c)
      = .singleton (blockNumber blocks base (A.advance q c)) := by
  have representative : ∀ r, r ∈ A.states → blockNumber blocks base r = blockNumber blocks base q →
      blockNumber blocks base (A.advance r c) = blockNumber blocks base (A.advance q c) := by
    intro r hr same
    have together := h.together_advance r q c hc ((h.isPartition.blockNumber_eq_iff hr).1 same)
    exact (h.isPartition.blockNumber_eq_iff (hA.advance_mem hr hc)).2 together
  obtain ⟨b, hb, hqb⟩ := (h.isPartition.mem_states_iff q).1 hq
  obtain ⟨r, hr, hrb⟩ := SortedSet.exists_head?_of_mem hqb
  have hrs := h.isPartition.subset hb r hrb
  have same : blockNumber blocks base r = blockNumber blocks base q :=
    (h.isPartition.blockNumber_eq_iff hrs).2 ⟨b, hb, hrb, hqb⟩
  apply ends_of_mem_table rfl
  · refine (h.isPartition.mem_quotientTable_iff hA).2 ⟨b, hb, r, hr, c, hc, ?_, ?_⟩
    · rw [same]
    · rw [representative r hrs same]
  · intro e he
    obtain ⟨d, hd, s, hs, x, _, origin, rfl⟩ := (h.isPartition.mem_quotientTable_iff hA).1 he
    rw [Origin.mk.injEq] at origin
    obtain ⟨number, label⟩ := origin
    cases label
    rw [representative s (h.isPartition.subset hd s (List.mem_of_head? hs)) number.symm]

theorem IsPartition.step_quotient (h : A.IsPartition blocks) (hA : A.IsDfa) {l : Label}
    {m n : State} (hn : n ∈ (A.quotient blocks base).ends m l) :
    ∃ q c, q ∈ A.states ∧ c ∈ A.alphabet ∧ m = blockNumber blocks base q ∧ l = some c ∧
      n = blockNumber blocks base (A.advance q c) := by
  obtain ⟨e, mem, eq⟩ := exists_mem_table rfl hn
  obtain ⟨b, hb, q, hq, c, hc, origin, rfl⟩ := (h.mem_quotientTable_iff hA).1 mem
  rw [Origin.mk.injEq] at origin
  rw [eq, SortedSet.mem_singleton] at hn
  exact ⟨q, c, h.subset hb q (List.mem_of_head? hq), hc, origin.1, origin.2, hn⟩

/-! ### The parts of the quotient -/

theorem IsPartition.mem_states_quotientBy (h : A.IsPartition blocks) {m : State} :
    m ∈ (A.quotientBy blocks base).states ↔ ∃ q, q ∈ A.states ∧ blockNumber blocks base q = m := by
  show m ∈ SortedSet.ofList (blocks.map fun b => base + (blocks.idxOf b : Int)) ↔ _
  rw [SortedSet.mem_ofList, List.mem_map]
  constructor
  · intro hm
    obtain ⟨b, hb, rfl⟩ := hm
    obtain ⟨q, hq⟩ := h.nonempty b hb
    refine ⟨q, h.subset hb q hq, ?_⟩
    rw [h.idxOf_eq_place hb hq]
    rfl
  · intro hm
    obtain ⟨q, hq, rfl⟩ := hm
    obtain ⟨b, hb, hqb⟩ := (h.mem_states_iff q).1 hq
    refine ⟨b, hb, ?_⟩
    rw [h.idxOf_eq_place hb hqb]
    rfl

theorem IsCongruence.mem_accepting_quotientBy (h : A.IsCongruence blocks) (hq : q ∈ A.states) :
    blockNumber blocks base q ∈ (A.quotientBy blocks base).accepting ↔ q ∈ A.accepting := by
  show _ ∈ SortedSet.ofList ((blocks.filter fun b => !decide (b.Disjoint A.accepting)).map
    fun b => base + (blocks.idxOf b : Int)) ↔ _
  rw [SortedSet.mem_ofList, List.mem_map]
  constructor
  · intro hm
    obtain ⟨b, hb, number⟩ := hm
    obtain ⟨hb, meets⟩ := List.mem_filter.1 hb
    rw [Bool.not_eq_true', decide_eq_false_iff_not, SortedSet.not_disjoint_iff] at meets
    obtain ⟨r, hr, hacc⟩ := meets
    rw [h.isPartition.idxOf_eq_place hb hr] at number
    have together := (h.isPartition.blockNumber_eq_iff (h.isPartition.subset hb r hr)).1 number
    exact (h.accepting_iff r q together).1 hacc
  · intro hacc
    obtain ⟨b, hb, hqb⟩ := (h.isPartition.mem_states_iff q).1 hq
    refine ⟨b, List.mem_filter.2 ⟨hb, ?_⟩, ?_⟩
    · rw [Bool.not_eq_true', decide_eq_false_iff_not, SortedSet.not_disjoint_iff]
      exact ⟨q, hqb, hacc⟩
    · rw [h.isPartition.idxOf_eq_place hb hqb]
      rfl

theorem start_quotientBy (A : Automaton) (blocks : List Block) (base : State) :
    (A.quotientBy blocks base).start = blockNumber blocks base A.start := rfl

theorem IsCongruence.fits_quotient (h : A.IsCongruence blocks) (hA : A.IsDfa) :
    (A.quotient blocks base).Fits where
  start_mem := by
    exact h.isPartition.mem_states_quotientBy.2 ⟨_, hA.wellFormed.start_mem, rfl⟩
  accepting_subset := by
    intro m hm
    obtain ⟨b, hb, rfl⟩ := List.mem_map.1 (SortedSet.mem_ofList.1 hm)
    exact SortedSet.mem_ofList.2 (List.mem_map.2 ⟨b, (List.mem_filter.1 hb).1, rfl⟩)
  step := by
    intro m l n hn
    obtain ⟨q, c, hq, hc, rfl, rfl, rfl⟩ := h.isPartition.step_quotient hA hn
    refine ⟨h.isPartition.mem_states_quotientBy.2 ⟨q, hq, rfl⟩, ?_, ?_⟩
    · exact h.isPartition.mem_states_quotientBy.2 ⟨_, hA.advance_mem hq hc, rfl⟩
    · intro d hd
      cases hd
      exact hc
  deterministic := by
    intro _
    constructor
    · intro m _
      rw [SortedSet.eq_empty_iff]
      intro n hn
      obtain ⟨_, _, _, _, _, label, _⟩ := h.isPartition.step_quotient hA hn
      cases label
    · intro m hm c hc
      obtain ⟨q, hq, rfl⟩ := h.isPartition.mem_states_quotientBy.1 hm
      rw [h.ends_quotient_some hA hq hc]
      rfl

theorem IsCongruence.isDfa_quotientBy (h : A.IsCongruence blocks) (hA : A.IsDfa) :
    (A.quotientBy blocks base).IsDfa :=
  ⟨(h.fits_quotient hA).wellFormed_compact, rfl⟩

/-! ### Where it goes and what it accepts -/

theorem IsCongruence.advance_quotientBy (h : A.IsCongruence blocks) (hA : A.IsDfa)
    (hq : q ∈ A.states) (hc : c ∈ A.alphabet) :
    (A.quotientBy blocks base).advance (blockNumber blocks base q) c
      = blockNumber blocks base (A.advance q c) := by
  have mem : blockNumber blocks base q ∈ (A.quotientBy blocks base).states :=
    h.isPartition.mem_states_quotientBy.2 ⟨q, hq, rfl⟩
  have isDfa : (A.quotientBy blocks base).IsDfa := h.isDfa_quotientBy hA
  have ends := isDfa.ends_some mem hc
  rw [quotientBy, ends_compact, h.ends_quotient_some hA hq hc] at ends
  exact (List.cons.inj (congrArg SortedSet.toList ends)).1.symm

/-- The quotient goes from block to block as the automaton goes from state to state. -/
theorem IsCongruence.walk_quotientBy (h : A.IsCongruence blocks) (hA : A.IsDfa)
    (hq : q ∈ A.states) (hw : A.Over w) :
    (A.quotientBy blocks base).walk (blockNumber blocks base q) w
      = blockNumber blocks base (A.walk q w) := by
  induction w generalizing q with
  | nil => rfl
  | cons c w ih =>
    obtain ⟨hc, hw⟩ := over_cons.1 hw
    rw [walk_cons, walk_cons, h.advance_quotientBy hA hq hc]
    exact ih (hA.advance_mem hq hc) hw

theorem IsCongruence.accepts_quotientBy (h : A.IsCongruence blocks) (hA : A.IsDfa) (w : Text) :
    (A.quotientBy blocks base).Accepts w ↔ A.Accepts w := by
  rw [(h.isDfa_quotientBy hA).accepts_iff_walk, hA.accepts_iff_walk]
  apply and_congr_right
  intro hw
  have start_mem := hA.wellFormed.start_mem
  rw [start_quotientBy, h.walk_quotientBy hA start_mem hw,
    h.mem_accepting_quotientBy (hA.walk_mem start_mem hw)]

end Automaton

end PatternAutomata
