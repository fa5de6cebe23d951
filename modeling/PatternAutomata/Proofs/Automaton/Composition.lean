import PatternAutomata.Automaton.Compose
import PatternAutomata.Proofs.Automaton.Acceptance
import PatternAutomata.Proofs.Automaton.Assembly

/-!
# What compositions accept

The compositions of automata that share no states, told by their transitions: a transition of a
composition is one of an operand, or one of the ε transitions that connect them.

* `mem_ends_unionFrom`, `mem_ends_followedBy`, `mem_ends_iteratedFrom` — the transitions;
  `of_mem_ends_unionFrom`, `of_mem_ends_followedBy` — there are no others even if states are shared;
* `Path.confined` — a path that cannot leave an operand is a path of it;
* `Path.leave` — a path that can leave it from an accepting state only is cut where it first does,
  and `Path.passes` wherever it does, if it starts over each time;
* `Path.leave_silently` — a path from a state with ε transitions alone goes on from the end of one;
* `symbolAt`, `epsilonAt`, `emptyAt` — the elementary automata as data; `accepts_symbolAt`,
  `accepts_epsilonAt`;
* `accepts_unionFrom`, `accepts_followedBy`, `accepts_iteratedFrom` — what is accepted;
* `fits_unionFrom`, `fits_followedBy`, `fits_iteratedFrom` — the parts fit together, and so they do
  if states are shared (`WellFormed.fits_unionFrom`, `WellFormed.fits_followedBy`);
* `runFrom_union_of_apartFrom`, `runFrom_concatenate_of_apartFrom`, `runFrom_star_eq` — the
  compositions with fresh states;
* `runFrom_union`, `runFrom_concatenate`, `runFrom_star` — those of nondeterministic automata that
  share no states.
-/

namespace PatternAutomata

namespace Automaton

variable {A B C : Automaton} {q r start target : State} {l : Label} {c : Symbol} {u v w : Text}

/-! ### Transitions -/

theorem WellFormed.get?_eq_none (hA : A.WellFormed) (hq : q ∉ A.states) (l : Label) :
    A.transitions.get? ⟨q, l⟩ = none := by
  cases look : A.transitions.get? ⟨q, l⟩ with
  | none => rfl
  | some ends =>
    exact absurd (hA.fitsEntry q l ends (OrderedMap.get?_eq_some_iff.1 look)).source_mem hq

theorem WellFormed.source_mem_states (hA : A.WellFormed) (h : r ∈ A.ends q l) : q ∈ A.states :=
  (hA.fitsEntry_of_mem_ends h).source_mem

/-- The transitions of a merged table are those of either automaton. -/
theorem mem_ends_merge (hA : A.WellFormed) (hB : B.WellFormed)
    (apart : A.states.Disjoint B.states) :
    r ∈ ((A.transitions.merge B.transitions).get? ⟨q, l⟩).getD ∅ ↔
      r ∈ A.ends q l ∨ r ∈ B.ends q l := by
  show _ ↔ r ∈ (A.transitions.get? ⟨q, l⟩).getD ∅ ∨ r ∈ (B.transitions.get? ⟨q, l⟩).getD ∅
  rw [OrderedMap.get?_merge]
  by_cases hq : q ∈ A.states
  · rw [hB.get?_eq_none (apart q hq) l]
    simp
  · rw [hA.get?_eq_none hq l]
    simp

theorem lookIn_returning (A : Automaton) (target q : State) (l : Label) :
    OrderedMap.lookIn ⟨q, l⟩ (A.returning target) =
      if l = none ∧ q ∈ A.accepting then some ((A.ends q none).insert target) else none := by
  have general : ∀ accepting : List State,
      OrderedMap.lookIn ⟨q, l⟩ (accepting.map fun p =>
          ((⟨p, none⟩ : Origin), (A.ends p none).insert target)) =
        if l = none ∧ q ∈ accepting then some ((A.ends q none).insert target) else none := by
    intro accepting
    induction accepting with
    | nil => simp [OrderedMap.lookIn]
    | cons p accepting ih =>
      rw [List.map_cons, OrderedMap.lookIn, ih]
      by_cases hl : l = none
      · by_cases hp : q = p
        · simp [hl, hp]
        · simp [hl, hp]
      · simp [hl]
  by_cases back : l = none ∧ q ∈ A.accepting
  · rw [if_pos back]
    exact (general A.accepting.toList).trans (if_pos back)
  · rw [if_neg back]
    exact (general A.accepting.toList).trans (if_neg back)

theorem nodup_keys_returning (A : Automaton) (target : State) :
    ((A.returning target).map Prod.fst).Nodup := by
  show (((A.accepting.toList.map fun q => ((⟨q, none⟩ : Origin), (A.ends q none).insert target)).map
    Prod.fst).Pairwise (· ≠ ·))
  rw [List.map_map, List.pairwise_map]
  refine A.accepting.ascending.imp ?_
  intro p q hpq same
  cases same
  exact absurd hpq (Int.lt_irrefl p)

/-- With the entries that return to a target, each accepting state has one more ε transition. -/
theorem mem_ends_returning {table : TransitionTable}
    (known : ∀ q, q ∈ A.accepting → (table.get? ⟨q, none⟩).getD ∅ = A.ends q none) :
    r ∈ ((table.insertAll (A.returning target)).get? ⟨q, l⟩).getD ∅ ↔
      r ∈ (table.get? ⟨q, l⟩).getD ∅ ∨ q ∈ A.accepting ∧ l = none ∧ r = target := by
  rw [OrderedMap.get?_insertAll (nodup_keys_returning A target), lookIn_returning]
  by_cases back : l = none ∧ q ∈ A.accepting
  · obtain ⟨rfl, hq⟩ := back
    simp only [hq, and_self, if_true, Option.some_or, Option.getD_some, SortedSet.mem_insert,
      known q hq, true_and]
    exact or_comm
  · rw [if_neg back, Option.none_or]
    constructor
    · exact Or.inl
    · intro h
      rcases h with h | ⟨hq, hl, _⟩
      · exact h
      · exact absurd ⟨hl, hq⟩ back

/-- A new entry has its ends as transitions, and the others stay. -/
theorem mem_ends_insert {table : TransitionTable} {ends : SortedSet State} {m : Label}
    (new : table.get? ⟨start, m⟩ = none) :
    r ∈ ((table.insert ⟨start, m⟩ ends).get? ⟨q, l⟩).getD ∅ ↔
      (q = start ∧ l = m ∧ r ∈ ends) ∨ r ∈ (table.get? ⟨q, l⟩).getD ∅ := by
  rw [OrderedMap.get?_insert]
  by_cases here : q = start ∧ l = m
  · obtain ⟨rfl, rfl⟩ := here
    rw [if_pos rfl, new]
    simp
  · have other : (⟨q, l⟩ : Origin) ≠ ⟨start, m⟩ := by
      intro same
      rw [Origin.mk.injEq] at same
      exact here same
    rw [if_neg other]
    constructor
    · exact Or.inr
    · intro h
      rcases h with ⟨hq, hl, _⟩ | h
      · exact absurd ⟨hq, hl⟩ here
      · exact h

theorem mem_ends_unionFrom (hA : A.WellFormed) (hB : B.WellFormed)
    (apart : A.states.Disjoint B.states) (newA : start ∉ A.states) (newB : start ∉ B.states) :
    r ∈ (unionFrom start A B).ends q l ↔
      (q = start ∧ l = none ∧ (r = A.start ∨ r = B.start)) ∨ r ∈ A.ends q l ∨ r ∈ B.ends q l := by
  have new : (A.transitions.merge B.transitions).get? ⟨start, none⟩ = none := by
    rw [OrderedMap.get?_merge, hA.get?_eq_none newA, hB.get?_eq_none newB]
    rfl
  have targets : r ∈ SortedSet.ofList [A.start, B.start] ↔ r = A.start ∨ r = B.start := by
    simp
  rw [← targets, ← mem_ends_merge hA hB apart]
  exact mem_ends_insert new

theorem mem_ends_followedBy (hA : A.WellFormed) (hB : B.WellFormed)
    (apart : A.states.Disjoint B.states) :
    r ∈ (followedBy A B).ends q l ↔
      r ∈ A.ends q l ∨ r ∈ B.ends q l ∨ (q ∈ A.accepting ∧ l = none ∧ r = B.start) := by
  have known : ∀ q, q ∈ A.accepting →
      ((A.transitions.merge B.transitions).get? ⟨q, none⟩).getD ∅ = A.ends q none := by
    intro q hq
    rw [OrderedMap.get?_merge, hB.get?_eq_none (apart q (hA.accepting_subset q hq)), Option.none_or]
    rfl
  rw [← or_assoc, ← mem_ends_merge hA hB apart]
  exact mem_ends_returning known

theorem mem_ends_iteratedFrom (hA : A.WellFormed) (new : start ∉ A.states) :
    r ∈ (iteratedFrom start A).ends q l ↔
      (q = start ∧ l = none ∧ r = A.start) ∨ r ∈ A.ends q l ∨
        (q ∈ A.accepting ∧ l = none ∧ r = A.start) := by
  have first : ∀ {q r : State} {l : Label},
      r ∈ ((A.transitions.insert ⟨start, none⟩ (.singleton A.start)).get? ⟨q, l⟩).getD ∅ ↔
        (q = start ∧ l = none ∧ r = A.start) ∨ r ∈ A.ends q l := by
    intro q r l
    rw [mem_ends_insert (hA.get?_eq_none new none), SortedSet.mem_singleton]
    rfl
  have known : ∀ q, q ∈ A.accepting →
      ((A.transitions.insert ⟨start, none⟩ (.singleton A.start)).get? ⟨q, none⟩).getD ∅
        = A.ends q none := by
    intro q hq
    apply SortedSet.ext
    intro r
    rw [first]
    constructor
    · intro h
      rcases h with ⟨rfl, _⟩ | h
      · exact absurd (hA.accepting_subset q hq) new
      · exact h
    · exact Or.inr
  rw [← or_assoc, ← first]
  exact mem_ends_returning known

/-! ### Operands that share states

An entry of the right operand then takes the place of one of the left operand, so transitions can be
missing, but there are no others. -/

/-- Looking up in a merged table finds an entry of either table. -/
theorem of_mem_get?_merge
    (h : r ∈ ((A.transitions.merge B.transitions).get? ⟨q, l⟩).getD ∅) :
    r ∈ A.ends q l ∨ r ∈ B.ends q l := by
  rw [OrderedMap.get?_merge] at h
  cases look : B.transitions.get? ⟨q, l⟩ with
  | none =>
    rw [look, Option.none_or] at h
    exact Or.inl h
  | some ends =>
    rw [look, Option.some_or] at h
    have found : B.ends q l = ends := congrArg (·.getD ∅) look
    exact Or.inr (found ▸ h)

theorem of_mem_ends_unionFrom (h : r ∈ (unionFrom start A B).ends q l) :
    (q = start ∧ l = none ∧ (r = A.start ∨ r = B.start)) ∨ r ∈ A.ends q l ∨ r ∈ B.ends q l := by
  have table : r ∈ (((A.transitions.merge B.transitions).insert ⟨start, none⟩
      (.ofList [A.start, B.start])).get? ⟨q, l⟩).getD ∅ := h
  rw [OrderedMap.get?_insert] at table
  by_cases here : (⟨q, l⟩ : Origin) = ⟨start, none⟩
  · rw [if_pos here] at table
    obtain ⟨rfl, rfl⟩ := Origin.mk.inj here
    have target : r = A.start ∨ r = B.start := by
      simpa using SortedSet.mem_ofList.1 table
    exact Or.inl ⟨rfl, rfl, target⟩
  · rw [if_neg here] at table
    exact Or.inr (of_mem_get?_merge table)

theorem of_mem_ends_followedBy (h : r ∈ (followedBy A B).ends q l) :
    r ∈ A.ends q l ∨ r ∈ B.ends q l ∨ (q ∈ A.accepting ∧ l = none ∧ r = B.start) := by
  have table : r ∈ (((A.transitions.merge B.transitions).insertAll
      (A.returning B.start)).get? ⟨q, l⟩).getD ∅ := h
  rw [OrderedMap.get?_insertAll (nodup_keys_returning A B.start), lookIn_returning] at table
  by_cases back : l = none ∧ q ∈ A.accepting
  · rw [if_pos back, Option.some_or] at table
    obtain ⟨rfl, hq⟩ := back
    rcases SortedSet.mem_insert.1 table with target | hr
    · exact Or.inr (Or.inr ⟨hq, rfl, target⟩)
    · exact Or.inl hr
  · rw [if_neg back, Option.none_or] at table
    exact (of_mem_get?_merge table).imp_right Or.inl

/-- The parts of a union fit together whether or not the operands share states. -/
theorem WellFormed.fits_unionFrom (hA : A.WellFormed) (hB : B.WellFormed) (start : State) :
    (unionFrom start A B).Fits where
  start_mem := SortedSet.mem_insert.2 (Or.inl rfl)
  accepting_subset := by
    intro q hq
    apply SortedSet.mem_insert.2
    rcases SortedSet.mem_union.1 hq with hq | hq
    · exact Or.inr (SortedSet.mem_union.2 (Or.inl (hA.accepting_subset q hq)))
    · exact Or.inr (SortedSet.mem_union.2 (Or.inr (hB.accepting_subset q hq)))
  step := by
    have left : ∀ q, q ∈ A.states → q ∈ (Automaton.unionFrom start A B).states := fun q hq =>
      SortedSet.mem_insert.2 (Or.inr (SortedSet.mem_union.2 (Or.inl hq)))
    have right : ∀ q, q ∈ B.states → q ∈ (Automaton.unionFrom start A B).states := fun q hq =>
      SortedSet.mem_insert.2 (Or.inr (SortedSet.mem_union.2 (Or.inr hq)))
    intro q l r hr
    rcases of_mem_ends_unionFrom hr with ⟨rfl, rfl, eq⟩ | hr | hr
    · refine ⟨SortedSet.mem_insert.2 (Or.inl rfl), ?_, nofun⟩
      rcases eq with rfl | rfl
      · exact left _ hA.start_mem
      · exact right _ hB.start_mem
    · obtain ⟨hq, hr, hc⟩ := hA.fits.step q l r hr
      exact ⟨left q hq, left r hr, fun c h => SortedSet.mem_union.2 (Or.inl (hc c h))⟩
    · obtain ⟨hq, hr, hc⟩ := hB.fits.step q l r hr
      exact ⟨right q hq, right r hr, fun c h => SortedSet.mem_union.2 (Or.inr (hc c h))⟩
  deterministic := nofun

/-- So do those of a concatenation. -/
theorem WellFormed.fits_followedBy (hA : A.WellFormed) (hB : B.WellFormed) :
    (followedBy A B).Fits where
  start_mem := SortedSet.mem_union.2 (Or.inl hA.start_mem)
  accepting_subset := by
    intro q hq
    exact SortedSet.mem_union.2 (Or.inr (hB.accepting_subset q hq))
  step := by
    intro q l r hr
    rcases of_mem_ends_followedBy hr with hr | hr | ⟨hq, rfl, rfl⟩
    · obtain ⟨hq, hr, hc⟩ := hA.fits.step q l r hr
      exact ⟨SortedSet.mem_union.2 (Or.inl hq), SortedSet.mem_union.2 (Or.inl hr),
        fun c h => SortedSet.mem_union.2 (Or.inl (hc c h))⟩
    · obtain ⟨hq, hr, hc⟩ := hB.fits.step q l r hr
      exact ⟨SortedSet.mem_union.2 (Or.inr hq), SortedSet.mem_union.2 (Or.inr hr),
        fun c h => SortedSet.mem_union.2 (Or.inr (hc c h))⟩
    · exact ⟨SortedSet.mem_union.2 (Or.inl (hA.accepting_subset q hq)),
        SortedSet.mem_union.2 (Or.inr hB.start_mem), nofun⟩
  deterministic := nofun

/-! ### Paths -/

/-- More transitions have more paths. -/
theorem Path.mono (h : A.Path q w r) (more : ∀ q l r, r ∈ A.ends q l → r ∈ C.ends q l) :
    C.Path q w r := by
  induction h with
  | refl q => exact .refl q
  | silent hr _ ih => exact .silent (more _ _ _ hr) ih
  | read hr _ ih => exact .read (more _ _ _ hr) ih

/-- A state that no transition leaves has only the path that spells nothing. -/
theorem Path.eq_nil (h : A.Path q w r) (stuck : ∀ l s, s ∉ A.ends q l) : w = [] := by
  cases h with
  | refl _ => rfl
  | silent hr _ => exact absurd hr (stuck _ _)
  | read hr _ => exact absurd hr (stuck _ _)

theorem accepts_compact (A : Automaton) (w : Text) : A.compact.Accepts w ↔ A.Accepts w := by
  constructor
  · intro h
    obtain ⟨r, hr, path⟩ := h
    refine ⟨r, hr, path.mono ?_⟩
    intro q l s hs
    rwa [ends_compact] at hs
  · intro h
    obtain ⟨r, hr, path⟩ := h
    refine ⟨r, hr, path.mono ?_⟩
    intro q l s hs
    rwa [ends_compact]

/-- A path whose transitions from states of `A` are those of `A` is a path of `A`. -/
theorem Path.confined (hA : A.WellFormed) (h : C.Path q w r) (hq : q ∈ A.states)
    (inside : ∀ q l r, q ∈ A.states → r ∈ C.ends q l → r ∈ A.ends q l) : A.Path q w r := by
  induction h with
  | refl q => exact .refl q
  | silent hr _ ih =>
    have step := inside _ _ _ hq hr
    exact .silent step (ih (hA.mem_states_of_mem_ends step))
  | read hr _ ih =>
    have step := inside _ _ _ hq hr
    exact .read step (ih (hA.mem_states_of_mem_ends step))

/-- A path that leaves `A` only from accepting states, for a target, is a path of `A` or leaves it
after a text that `A` accepts from there. -/
theorem Path.leave (hA : A.WellFormed) (h : C.Path q w r) (hq : q ∈ A.states)
    (inside : ∀ q l r, q ∈ A.states → r ∈ C.ends q l →
      r ∈ A.ends q l ∨ q ∈ A.accepting ∧ l = none ∧ r = target) :
    A.Path q w r ∨ ∃ u v m, w = u ++ v ∧ m ∈ A.accepting ∧ A.Path q u m ∧ C.Path target v r := by
  induction h with
  | refl q => exact Or.inl (.refl q)
  | silent hr tail ih =>
    rcases inside _ _ _ hq hr with step | ⟨hacc, _, rfl⟩
    · rcases ih (hA.mem_states_of_mem_ends step) with path | ⟨u, v, m, rfl, hm, path, rest⟩
      · exact Or.inl (.silent step path)
      · exact Or.inr ⟨u, v, m, rfl, hm, .silent step path, rest⟩
    · exact Or.inr ⟨[], _, _, rfl, hacc, .refl _, tail⟩
  | read hr tail ih =>
    rcases inside _ _ _ hq hr with step | ⟨_, label, _⟩
    · rcases ih (hA.mem_states_of_mem_ends step) with path | ⟨u, v, m, rfl, hm, path, rest⟩
      · exact Or.inl (.read step path)
      · exact Or.inr ⟨_ :: u, v, m, rfl, hm, .read step path, rest⟩
    · cases label

/-- A path that leaves `A` only from accepting states, and then starts over, goes through `A`
several times: the first time from where it starts, and then from the start state, always but for
the last time along a text that `A` accepts. -/
theorem Path.passes (hA : A.WellFormed) (h : C.Path q w r) (hq : q ∈ A.states)
    (inside : ∀ q l r, q ∈ A.states → r ∈ C.ends q l →
      r ∈ A.ends q l ∨ q ∈ A.accepting ∧ l = none ∧ r = A.start) :
    A.Path q w r ∨ ∃ (u : Text) (parts : List Text) (v : Text) (m : State),
      w = u ++ parts.flatten ++ v ∧ m ∈ A.accepting ∧ A.Path q u m ∧
        (∀ p ∈ parts, A.Accepts p) ∧ A.Path A.start v r := by
  induction h with
  | refl q => exact Or.inl (.refl q)
  | silent hr tail ih =>
    rcases inside _ _ _ hq hr with step | ⟨hacc, _, rfl⟩
    · rcases ih (hA.mem_states_of_mem_ends step) with path | ⟨u, parts, v, m, rfl, hm, path, rest⟩
      · exact Or.inl (.silent step path)
      · exact Or.inr ⟨u, parts, v, m, rfl, hm, .silent step path, rest⟩
    · rcases ih hA.start_mem with path | ⟨u, parts, v, m, rfl, hm, path, all, last⟩
      · have all : ∀ p ∈ ([] : List Text), A.Accepts p := fun p hp => absurd hp List.not_mem_nil
        exact Or.inr ⟨[], [], _, _, rfl, hacc, .refl _, all, path⟩
      · exact Or.inr ⟨[], u :: parts, v, _, rfl, hacc, .refl _,
          List.forall_mem_cons.2 ⟨⟨m, hm, path⟩, all⟩, last⟩
  | read hr tail ih =>
    rcases inside _ _ _ hq hr with step | ⟨_, label, _⟩
    · rcases ih (hA.mem_states_of_mem_ends step) with path | ⟨u, parts, v, m, rfl, hm, path, rest⟩
      · exact Or.inl (.read step path)
      · exact Or.inr ⟨_ :: u, parts, v, m, rfl, hm, .read step path, rest⟩
    · cases label

/-- A path from a state that only ε transitions leave stays there, or goes on from the end of one. -/
theorem Path.leave_silently {P : State → Prop} (h : C.Path q w r)
    (only : ∀ l m, m ∈ C.ends q l → l = none ∧ P m) :
    w = [] ∧ r = q ∨ ∃ m, P m ∧ C.Path m w r := by
  cases h with
  | refl _ => exact Or.inl ⟨rfl, rfl⟩
  | silent hm tail => exact Or.inr ⟨_, (only _ _ hm).2, tail⟩
  | read hm _ => cases (only _ _ hm).1

/-! ### Elementary automata -/

/-- The automaton that accepts one symbol, with two consecutive states. -/
def symbolAt (c : Symbol) (start : State) : Automaton :=
  { alphabet := .singleton c
    states := .ofList [start, start + 1]
    transitions := .ofList [(⟨start, some c⟩, .singleton (start + 1))]
    start := start
    accepting := .singleton (start + 1) }

/-- The automaton that accepts only the empty text, with one state. -/
def epsilonAt (state : State) : Automaton :=
  { alphabet := ∅
    states := .singleton state
    transitions := ∅
    start := state
    accepting := .singleton state }

theorem mem_ends_symbolAt :
    r ∈ (symbolAt c start).ends q l ↔ q = start ∧ l = some c ∧ r = start + 1 := by
  show r ∈ (((∅ : TransitionTable).insert ⟨start, some c⟩
    (.singleton (start + 1))).get? ⟨q, l⟩).getD ∅ ↔ _
  rw [mem_ends_insert (OrderedMap.get?_empty _), SortedSet.mem_singleton]
  have nothing : r ∉ (OrderedMap.get? (∅ : TransitionTable) ⟨q, l⟩).getD ∅ :=
    SortedSet.not_mem_empty r
  exact or_iff_left nothing

theorem fits_symbolAt (c : Symbol) (start : State) : (symbolAt c start).Fits where
  start_mem := SortedSet.mem_ofList.2 List.mem_cons_self
  accepting_subset := by
    intro q hq
    rw [SortedSet.mem_singleton.1 hq]
    exact SortedSet.mem_ofList.2 (List.mem_cons_of_mem _ List.mem_cons_self)
  step := by
    intro q l r hr
    obtain ⟨rfl, rfl, rfl⟩ := mem_ends_symbolAt.1 hr
    refine ⟨SortedSet.mem_ofList.2 List.mem_cons_self, ?_, ?_⟩
    · exact SortedSet.mem_ofList.2 (List.mem_cons_of_mem _ List.mem_cons_self)
    · intro d hd
      cases hd
      exact SortedSet.mem_singleton.2 rfl
  deterministic := nofun

theorem accepts_symbolAt : (symbolAt c start).Accepts w ↔ w = [c] := by
  have stuck : start + 1 ≠ start := by
    intro same
    have larger : start < start + 1 := Int.lt_succ start
    rw [same] at larger
    exact Int.lt_irrefl start larger
  constructor
  · intro h
    obtain ⟨r, hr, path⟩ := h
    have hr : r = start + 1 := SortedSet.mem_singleton.1 hr
    generalize hs : (symbolAt c start).start = s at path
    have hs : start = s := hs
    subst hs
    cases path with
    | refl _ => exact absurd hr.symm stuck
    | silent hm _ => cases (mem_ends_symbolAt.1 hm).2.1
    | read hm tail =>
      obtain ⟨_, label, rfl⟩ := mem_ends_symbolAt.1 hm
      cases label
      rw [tail.eq_nil fun l r hr => stuck (mem_ends_symbolAt.1 hr).1]
  · intro h
    rw [h]
    refine ⟨start + 1, SortedSet.mem_singleton.2 rfl, .read ?_ (.refl _)⟩
    exact mem_ends_symbolAt.2 ⟨rfl, rfl, rfl⟩

theorem runFrom_symbol (c : Symbol) (counter : State) :
    (symbol c).runFrom counter = (.ok (symbolAt c counter).compact, counter + 1 + 1) := by
  unfold symbol
  simp only [Fresh.runFrom_bind, Fresh.runFrom_fresh]
  exact (fits_symbolAt c counter).runFrom_assembled (counter + 1 + 1)

theorem not_mem_ends_epsilonAt : r ∉ (epsilonAt start).ends q l := SortedSet.not_mem_empty r

theorem fits_epsilonAt (state : State) : (epsilonAt state).Fits where
  start_mem := SortedSet.mem_singleton.2 rfl
  accepting_subset := fun _ hq => hq
  step := fun _ _ _ hr => absurd hr not_mem_ends_epsilonAt
  deterministic := nofun

theorem accepts_epsilonAt : (epsilonAt start).Accepts w ↔ w = [] := by
  constructor
  · intro h
    obtain ⟨_, _, path⟩ := h
    exact path.eq_nil fun _ _ => not_mem_ends_epsilonAt
  · intro h
    rw [h]
    exact ⟨start, SortedSet.mem_singleton.2 rfl, .refl start⟩

theorem runFrom_epsilon (counter : State) :
    epsilon.runFrom counter = (.ok (epsilonAt counter).compact, counter + 1) := by
  unfold epsilon
  rw [Fresh.runFrom_bind, Fresh.runFrom_fresh]
  exact (fits_epsilonAt counter).runFrom_assembled (counter + 1)

/-- The automaton that accepts nothing, with one state. -/
def emptyAt (state : State) : Automaton := { epsilonAt state with accepting := ∅ }

theorem fits_emptyAt (state : State) : (emptyAt state).Fits where
  start_mem := SortedSet.mem_singleton.2 rfl
  accepting_subset := fun q hq => absurd hq (SortedSet.not_mem_empty q)
  step := fun _ _ r hr => absurd hr (SortedSet.not_mem_empty r)
  deterministic := nofun

theorem runFrom_empty (counter : State) :
    empty.runFrom counter = (.ok (emptyAt counter).compact, counter + 1) := by
  unfold empty
  rw [Fresh.runFrom_bind, Fresh.runFrom_fresh]
  exact (fits_emptyAt counter).runFrom_assembled (counter + 1)

/-! ### Union -/

section Union

variable (hA : A.WellFormed) (hB : B.WellFormed) (apart : A.states.Disjoint B.states)
  (newA : start ∉ A.states) (newB : start ∉ B.states)

include hA hB apart newA newB

theorem path_unionFrom_left (hq : q ∈ A.states) (h : (unionFrom start A B).Path q w r) :
    A.Path q w r := by
  refine h.confined hA hq ?_
  intro q l r hq hr
  rcases (mem_ends_unionFrom hA hB apart newA newB).1 hr with ⟨rfl, _⟩ | hr | hr
  · exact absurd hq newA
  · exact hr
  · exact absurd (hB.source_mem_states hr) (apart q hq)

theorem path_unionFrom_right (hq : q ∈ B.states) (h : (unionFrom start A B).Path q w r) :
    B.Path q w r := by
  refine h.confined hB hq ?_
  intro q l r hq hr
  rcases (mem_ends_unionFrom hA hB apart newA newB).1 hr with ⟨rfl, _⟩ | hr | hr
  · exact absurd hq newB
  · exact absurd hq (apart q (hA.source_mem_states hr))
  · exact hr

/-- The new start state has ε transitions to the start states of the operands alone. -/
theorem eq_of_mem_ends_start_unionFrom (h : r ∈ (unionFrom start A B).ends start l) :
    l = none ∧ (r = A.start ∨ r = B.start) := by
  rcases (mem_ends_unionFrom hA hB apart newA newB).1 h with ⟨_, label, target⟩ | hr | hr
  · exact ⟨label, target⟩
  · exact absurd (hA.source_mem_states hr) newA
  · exact absurd (hB.source_mem_states hr) newB

theorem accepts_unionFrom : (unionFrom start A B).Accepts w ↔ A.Accepts w ∨ B.Accepts w := by
  have step := @mem_ends_unionFrom A B
  constructor
  · intro h
    obtain ⟨r, hr, path⟩ := h
    have states : r ∈ A.accepting ∨ r ∈ B.accepting := SortedSet.mem_union.1 hr
    have first := path.leave_silently fun _ _ =>
      eq_of_mem_ends_start_unionFrom hA hB apart newA newB
    rcases first with ⟨_, rfl⟩ | ⟨_, rfl | rfl, path⟩
    · rcases states with hr | hr
      · exact absurd (hA.accepting_subset _ hr) newA
      · exact absurd (hB.accepting_subset _ hr) newB
    · have path := path_unionFrom_left hA hB apart newA newB hA.start_mem path
      refine Or.inl ⟨r, ?_, path⟩
      exact states.resolve_right fun hr =>
        apart r (path.state_mem hA hA.start_mem) (hB.accepting_subset r hr)
    · have path := path_unionFrom_right hA hB apart newA newB hB.start_mem path
      refine Or.inr ⟨r, ?_, path⟩
      exact states.resolve_left fun hr =>
        apart r (hA.accepting_subset r hr) (path.state_mem hB hB.start_mem)
  · intro h
    rcases h with ⟨r, hr, path⟩ | ⟨r, hr, path⟩
    · refine ⟨r, SortedSet.mem_union.2 (Or.inl hr), .silent (r := A.start) ?_ (path.mono ?_)⟩
      · exact (step hA hB apart newA newB).2 (Or.inl ⟨rfl, rfl, Or.inl rfl⟩)
      · intro q l s hs
        exact (step hA hB apart newA newB).2 (Or.inr (Or.inl hs))
    · refine ⟨r, SortedSet.mem_union.2 (Or.inr hr), .silent (r := B.start) ?_ (path.mono ?_)⟩
      · exact (step hA hB apart newA newB).2 (Or.inl ⟨rfl, rfl, Or.inr rfl⟩)
      · intro q l s hs
        exact (step hA hB apart newA newB).2 (Or.inr (Or.inr hs))

end Union

theorem fits_unionFrom (hA : A.WellFormed) (hB : B.WellFormed) (_ : A.states.Disjoint B.states)
    (_ : start ∉ A.states) (_ : start ∉ B.states) : (unionFrom start A B).Fits :=
  hA.fits_unionFrom hB start

/-! ### Concatenation -/

section Concatenation

variable (hA : A.WellFormed) (hB : B.WellFormed) (apart : A.states.Disjoint B.states)

include hA hB apart

theorem accepts_followedBy :
    (followedBy A B).Accepts w ↔ ∃ u v, w = u ++ v ∧ A.Accepts u ∧ B.Accepts v := by
  have step := @mem_ends_followedBy A B
  constructor
  · intro h
    obtain ⟨r, hr, path⟩ := h
    have hr : r ∈ B.accepting := hr
    have inside : ∀ q l r, q ∈ A.states → r ∈ (followedBy A B).ends q l →
        r ∈ A.ends q l ∨ q ∈ A.accepting ∧ l = none ∧ r = B.start := by
      intro q l r hq hr
      rcases (step hA hB apart).1 hr with hr | hr | hr
      · exact Or.inl hr
      · exact absurd (hB.source_mem_states hr) (apart q hq)
      · exact Or.inr hr
    rcases path.leave hA hA.start_mem inside with path | ⟨u, v, m, rfl, hm, path, rest⟩
    · exact absurd (hB.accepting_subset r hr) (apart r (path.state_mem hA hA.start_mem))
    · refine ⟨u, v, rfl, ⟨m, hm, path⟩, r, hr, rest.confined hB hB.start_mem ?_⟩
      intro q l r hq hr
      rcases (step hA hB apart).1 hr with hr | hr | ⟨hacc, _⟩
      · exact absurd hq (apart q (hA.source_mem_states hr))
      · exact hr
      · exact absurd hq (apart q (hA.accepting_subset q hacc))
  · intro h
    obtain ⟨u, v, rfl, ⟨m, hm, left⟩, r, hr, right⟩ := h
    refine ⟨r, hr, (left.mono ?_).append (.silent ?_ (right.mono ?_))⟩
    · intro q l s hs
      exact (step hA hB apart).2 (Or.inl hs)
    · exact (step hA hB apart).2 (Or.inr (Or.inr ⟨hm, rfl, rfl⟩))
    · intro q l s hs
      exact (step hA hB apart).2 (Or.inr (Or.inl hs))

end Concatenation

theorem fits_followedBy (hA : A.WellFormed) (hB : B.WellFormed) (_ : A.states.Disjoint B.states) :
    (followedBy A B).Fits :=
  hA.fits_followedBy hB

/-! ### Iteration -/

section Iteration

variable (hA : A.WellFormed) (new : start ∉ A.states)

include hA new

/-- Texts that `A` accepts can be read one after the other. -/
theorem exists_path_iteratedFrom {parts : List Text} (all : ∀ u ∈ parts, A.Accepts u)
    (nonempty : parts ≠ []) :
    ∃ m ∈ A.accepting, (iteratedFrom start A).Path A.start parts.flatten m := by
  have step := @mem_ends_iteratedFrom A
  induction parts with
  | nil => exact absurd rfl nonempty
  | cons u parts ih =>
    obtain ⟨⟨m, hm, path⟩, rest⟩ := List.forall_mem_cons.1 all
    have first : (iteratedFrom start A).Path A.start u m := by
      refine path.mono ?_
      intro q l s hs
      exact (step hA new).2 (Or.inr (Or.inl hs))
    rw [List.flatten_cons]
    by_cases last : parts = []
    · rw [last, List.flatten_nil, List.append_nil]
      exact ⟨m, hm, first⟩
    · obtain ⟨n, hn, tail⟩ := ih rest last
      refine ⟨n, hn, first.append (.silent ?_ tail)⟩
      exact (step hA new).2 (Or.inr (Or.inr ⟨hm, rfl, rfl⟩))

/-- The new start state has an ε transition to the start state of `A` alone. -/
theorem eq_of_mem_ends_start_iteratedFrom (h : r ∈ (iteratedFrom start A).ends start l) :
    l = none ∧ r = A.start := by
  rcases (mem_ends_iteratedFrom hA new).1 h with ⟨_, label, target⟩ | hr | ⟨hq, _⟩
  · exact ⟨label, target⟩
  · exact absurd (hA.source_mem_states hr) new
  · exact absurd (hA.accepting_subset _ hq) new

/-- What is read on the way from the start state of `A` to an accepting state is put together from
texts that `A` accepts: the path never comes back to the new start state. -/
theorem exists_parts_of_path_iteratedFrom (hr : r ∈ (iteratedFrom start A).accepting)
    (path : (iteratedFrom start A).Path A.start w r) :
    ∃ parts : List Text, w = parts.flatten ∧ ∀ u ∈ parts, A.Accepts u := by
  have accepted : r ∈ A.states → r ∈ A.accepting := by
    intro states
    rcases SortedSet.mem_insert.1 hr with rfl | hr
    · exact absurd states new
    · exact hr
  have inside : ∀ q l r, q ∈ A.states → r ∈ (iteratedFrom start A).ends q l →
      r ∈ A.ends q l ∨ q ∈ A.accepting ∧ l = none ∧ r = A.start := by
    intro q l r hq hr
    rcases (mem_ends_iteratedFrom hA new).1 hr with ⟨rfl, _⟩ | hr | hr
    · exact absurd hq new
    · exact Or.inl hr
    · exact Or.inr hr
  rcases path.passes hA hA.start_mem inside with
    path | ⟨u, parts, v, m, rfl, hm, first, all, last⟩
  · refine ⟨[w], List.flatten_singleton.symm, ?_⟩
    intro u hu
    rw [List.mem_singleton.1 hu]
    exact ⟨r, accepted (path.state_mem hA hA.start_mem), path⟩
  · refine ⟨u :: parts ++ [v], by simp, ?_⟩
    refine List.forall_mem_append.2 ⟨List.forall_mem_cons.2 ⟨⟨m, hm, first⟩, all⟩, ?_⟩
    intro x hx
    rw [List.mem_singleton.1 hx]
    exact ⟨r, accepted (last.state_mem hA hA.start_mem), last⟩

theorem accepts_iteratedFrom :
    (iteratedFrom start A).Accepts w ↔
      ∃ parts : List Text, w = parts.flatten ∧ ∀ u ∈ parts, A.Accepts u := by
  constructor
  · intro h
    obtain ⟨r, hr, path⟩ := h
    have first := path.leave_silently fun _ _ => eq_of_mem_ends_start_iteratedFrom hA new
    rcases first with ⟨rfl, _⟩ | ⟨_, rfl, path⟩
    · exact ⟨[], rfl, fun u hu => absurd hu List.not_mem_nil⟩
    · exact exists_parts_of_path_iteratedFrom hA new hr path
  · intro h
    obtain ⟨parts, rfl, all⟩ := h
    by_cases none : parts = []
    · rw [none]
      exact ⟨start, SortedSet.mem_insert.2 (Or.inl rfl), .refl start⟩
    · obtain ⟨m, hm, path⟩ := exists_path_iteratedFrom hA new all none
      refine ⟨m, SortedSet.mem_insert.2 (Or.inr hm), .silent ?_ path⟩
      exact (mem_ends_iteratedFrom hA new).2 (Or.inl ⟨rfl, rfl, rfl⟩)

theorem fits_iteratedFrom : (iteratedFrom start A).Fits where
  start_mem := SortedSet.mem_insert.2 (Or.inl rfl)
  accepting_subset := by
    intro q hq
    apply SortedSet.mem_insert.2
    rcases SortedSet.mem_insert.1 hq with rfl | hq
    · exact Or.inl rfl
    · exact Or.inr (hA.accepting_subset q hq)
  step := by
    intro q l r hr
    rcases (mem_ends_iteratedFrom hA new).1 hr with ⟨rfl, rfl, rfl⟩ | hr | ⟨hq, rfl, rfl⟩
    · exact ⟨SortedSet.mem_insert.2 (Or.inl rfl),
        SortedSet.mem_insert.2 (Or.inr hA.start_mem), nofun⟩
    · obtain ⟨hq, hr, hc⟩ := hA.fits.step q l r hr
      exact ⟨SortedSet.mem_insert.2 (Or.inr hq), SortedSet.mem_insert.2 (Or.inr hr), hc⟩
    · exact ⟨SortedSet.mem_insert.2 (Or.inr (hA.accepting_subset q hq)),
        SortedSet.mem_insert.2 (Or.inr hA.start_mem), nofun⟩
  deterministic := nofun

end Iteration

/-! ### Composing with fresh states -/

theorem runFrom_apartFrom (apart : A.states.Disjoint B.states) (counter : State) :
    (B.apartFrom A).runFrom counter = (.ok B, counter) := by
  unfold apartFrom
  rw [if_pos apart]
  rfl

theorem runFrom_conform (kind : A.kind = .nondeterministic) (fits : C.Fits) (counter : State) :
    (A.conform C).runFrom counter = (.ok C.compact, counter) := by
  have stays : ¬ A.isDeterministic = true := by
    simp [isDeterministic, kind]
  unfold conform
  rw [Fresh.runFrom_bind, fits.runFrom_assembled]
  simp only [if_neg stays]
  rfl

/-- If the left operand is deterministic, the composition is determinized. -/
theorem runFrom_conform_of_deterministic (kind : A.kind = .deterministic) (fits : C.Fits)
    (counter : State) :
    (A.conform C).runFrom counter = C.compact.determinize.runFrom counter := by
  have asked : A.isDeterministic = true := decide_eq_true kind
  unfold conform
  rw [Fresh.runFrom_bind, fits.runFrom_assembled]
  simp only [if_pos asked]

/-- A union is put together once the right operand shares no state with the left one. -/
theorem runFrom_union_of_apartFrom {counter next : State}
    (made : (B.apartFrom A).runFrom counter = (.ok C, next)) :
    (A.union B).runFrom counter = (A.conform (unionFrom next A C)).runFrom (next + 1) := by
  unfold union
  rw [Fresh.runFrom_bind, made]
  simp only [Fresh.runFrom_bind, Fresh.runFrom_fresh]

theorem runFrom_concatenate_of_apartFrom {counter next : State}
    (made : (B.apartFrom A).runFrom counter = (.ok C, next)) :
    (A.concatenate B).runFrom counter = (A.conform (followedBy A C)).runFrom next := by
  unfold concatenate
  rw [Fresh.runFrom_bind, made]

theorem runFrom_star_eq (A : Automaton) (counter : State) :
    A.star.runFrom counter = (A.conform (iteratedFrom counter A)).runFrom (counter + 1) := by
  unfold star
  rw [Fresh.runFrom_bind, Fresh.runFrom_fresh]

theorem runFrom_union (kind : A.kind = .nondeterministic) (apart : A.states.Disjoint B.states)
    {counter : State} (fits : (unionFrom counter A B).Fits) :
    (A.union B).runFrom counter = (.ok (unionFrom counter A B).compact, counter + 1) := by
  rw [runFrom_union_of_apartFrom (runFrom_apartFrom apart counter)]
  exact runFrom_conform kind fits (counter + 1)

theorem runFrom_concatenate (kind : A.kind = .nondeterministic)
    (apart : A.states.Disjoint B.states) {counter : State} (fits : (followedBy A B).Fits) :
    (A.concatenate B).runFrom counter = (.ok (followedBy A B).compact, counter) := by
  rw [runFrom_concatenate_of_apartFrom (runFrom_apartFrom apart counter)]
  exact runFrom_conform kind fits counter

theorem runFrom_star (kind : A.kind = .nondeterministic) {counter : State}
    (fits : (iteratedFrom counter A).Fits) :
    A.star.runFrom counter = (.ok (iteratedFrom counter A).compact, counter + 1) := by
  rw [runFrom_star_eq]
  exact runFrom_conform kind fits (counter + 1)

end Automaton

end PatternAutomata
