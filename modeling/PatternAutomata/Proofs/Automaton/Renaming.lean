import PatternAutomata.Automaton.Compose
import PatternAutomata.Proofs.Automaton.Isomorphism

/-!
# Renaming states

An automaton with its states renamed by a function that tells them apart is an automaton of the same
kind and shape.  Relabelling with fresh states is such a renaming.

* `ends_rename`, `wellFormed_rename`, `isIsomorphism_rename` — a renamed automaton;
* `exists_of_mem_keys_names_rename` — its names are those of the given one;
* `runFrom_relabel` — relabelling gives a renamed automaton and takes one state for each;
* `rankFrom_bounds_of_mem` — whose states are all fresh.
-/

namespace PatternAutomata

namespace Automaton

variable {A : Automaton} {f : State → State} {p q r base : State} {l : Label} {t : Text}

/-- A well-formed automaton has no entries that lead nowhere. -/
theorem WellFormed.compact_eq (hA : A.WellFormed) : A.compact = A := compact_eq_self hA.nonempty

/-- The entries of the table of a renamed automaton. -/
theorem mem_renamedTable_iff {origin : Origin} {ends : SortedSet State} :
    (origin, ends) ∈ (A.transitions.entries.map fun e =>
        ((⟨f e.1.source, e.1.label⟩ : Origin), e.2.map f)) ↔
      ∃ q l before, (⟨q, l⟩, before) ∈ A.transitions.entries ∧ origin = ⟨f q, l⟩ ∧
        ends = before.map f := by
  rw [List.mem_map]
  constructor
  · intro h
    obtain ⟨e, he, same⟩ := h
    rw [Prod.mk.injEq] at same
    exact ⟨e.1.source, e.1.label, e.2, he, same.1.symm, same.2.symm⟩
  · intro h
    obtain ⟨q, l, before, mem, rfl, rfl⟩ := h
    exact ⟨(⟨q, l⟩, before), mem, rfl⟩

section Renamed

variable (hA : A.WellFormed)
  (injective : ∀ q r, q ∈ A.states → r ∈ A.states → f q = f r → q = r)

include hA injective

theorem ends_rename (hq : q ∈ A.states) (l : Label) :
    (A.rename f).ends (f q) l = (A.ends q l).map f := by
  -- a renamed entry for this state is the entry for it
  have source : ∀ p before, (⟨p, l⟩, before) ∈ A.transitions.entries → f q = f p →
      before = A.ends q l := by
    intro p before mem same
    rw [injective q p hq (hA.fitsEntry p l before mem).source_mem same]
    exact (ends_eq_of_mem_entries mem).symm
  cases look : A.transitions.get? ⟨q, l⟩ with
  | some ends =>
    have mem := OrderedMap.get?_eq_some_iff.1 look
    apply ends_of_mem_table rfl
    · rw [ends_eq_of_mem_entries mem]
      exact mem_renamedTable_iff.2 ⟨q, l, ends, mem, rfl, rfl⟩
    · intro e he
      obtain ⟨p, m, before, mem, origin, rfl⟩ := mem_renamedTable_iff.1 he
      obtain ⟨same, rfl⟩ := Origin.mk.inj origin
      rw [source p before mem same]
  | none =>
    have nothing : A.ends q l = ∅ := by
      show (A.transitions.get? ⟨q, l⟩).getD ∅ = ∅
      rw [look]
      rfl
    apply SortedSet.ext
    intro r
    constructor
    · intro h
      obtain ⟨e, he, eq⟩ := exists_mem_table rfl h
      obtain ⟨p, m, before, mem, origin, rfl⟩ := mem_renamedTable_iff.1 he
      obtain ⟨same, rfl⟩ := Origin.mk.inj origin
      rwa [eq, source p before mem same] at h
    · intro h
      rw [nothing] at h
      exact absurd h (SortedSet.not_mem_empty r)

theorem wellFormed_rename : (A.rename f).WellFormed where
  start_mem := SortedSet.mem_map_of_mem hA.start_mem
  accepting_subset := by
    intro q hq
    obtain ⟨p, hp, rfl⟩ := SortedSet.mem_map.1 hq
    exact SortedSet.mem_map_of_mem (hA.accepting_subset p hp)
  fitsEntry := by
    intro q l ends mem
    have listed := OrderedMap.mem_of_get?_ofList (OrderedMap.get?_eq_some_iff.2 mem)
    obtain ⟨p, m, before, mem, origin, rfl⟩ := mem_renamedTable_iff.1 listed
    obtain ⟨rfl, rfl⟩ := Origin.mk.inj origin
    have entry := hA.fitsEntry p l before mem
    refine ⟨SortedSet.mem_map_of_mem entry.source_mem, ?_, entry.symbol_mem⟩
    intro r hr
    obtain ⟨s, hs, rfl⟩ := SortedSet.mem_map.1 hr
    exact SortedSet.mem_map_of_mem (entry.ends_subset s hs)
  nonempty := by
    intro q l ends mem
    have listed := OrderedMap.mem_of_get?_ofList (OrderedMap.get?_eq_some_iff.2 mem)
    obtain ⟨p, m, before, kept, _, rfl⟩ := mem_renamedTable_iff.1 listed
    obtain ⟨s, hs⟩ := SortedSet.isEmpty_eq_false_iff.1 (hA.nonempty p m before kept)
    exact SortedSet.isEmpty_eq_false_iff.2 ⟨f s, SortedSet.mem_map_of_mem hs⟩
  deterministic := by
    intro kind
    obtain ⟨silent, steps⟩ := hA.deterministic kind
    constructor
    · intro q hq
      obtain ⟨p, hp, rfl⟩ := SortedSet.mem_map.1 hq
      rw [ends_rename hA injective hp, silent p hp]
      rfl
    · intro q hq c hc
      obtain ⟨p, hp, rfl⟩ := SortedSet.mem_map.1 hq
      obtain ⟨r, hr⟩ := SortedSet.size_eq_one_iff.1 (steps p hp c hc)
      rw [ends_rename hA injective hp, hr]
      rfl

/-- A renamed automaton is isomorphic to the given one. -/
theorem isIsomorphism_rename : IsIsomorphism f A (A.rename f) where
  source_wellFormed := hA
  target_wellFormed := wellFormed_rename hA injective
  injective := injective
  alphabet := rfl
  kind := rfl
  states := rfl
  start := rfl
  accepting := rfl
  ends := fun _ hq l => ends_rename hA injective hq l

end Renamed

/-- A renamed automaton has the names of the given one. -/
theorem exists_of_mem_keys_names_rename (h : p ∈ (A.rename f).names.keys) :
    ∃ q ∈ A.names.keys, f q = p := by
  obtain ⟨t, ht⟩ := OrderedMap.exists_mem_of_mem_keys_ofList h
  obtain ⟨e, he, same⟩ := List.mem_map.1 ht
  exact ⟨e.1, List.mem_map.2 ⟨e, he, rfl⟩, congrArg Prod.fst same⟩

/-! ### Relabelling -/

theorem eq_of_rankFrom_eq (base q r : State) (hq : q ∈ A.states) (_ : r ∈ A.states)
    (h : A.rankFrom base q = A.rankFrom base r) : q = r := eq_of_numbered_eq hq h

/-- The states of a relabelled automaton are fresh. -/
theorem rankFrom_bounds_of_mem (h : p ∈ (A.rename (A.rankFrom base)).states) :
    base ≤ p ∧ p < base + A.states.size := by
  obtain ⟨q, hq, rfl⟩ := SortedSet.mem_map.1 h
  exact numbered_lt_of_mem hq

/-- An automaton with names for its own states only is relabelled. -/
theorem runFrom_relabel (hA : A.WellFormed) (named : ∀ q, q ∈ A.names.keys → q ∈ A.states)
    (counter : State) :
    A.relabel.runFrom counter =
      (.ok (A.rename (A.rankFrom counter)), counter + A.states.size) := by
  have own : A.names.keys.find? (fun q => decide (q ∉ A.states)) = none := by
    rw [List.find?_eq_none]
    intro q hq
    simp [named q hq]
  have wellFormed := wellFormed_rename hA (eq_of_rankFrom_eq counter)
  unfold relabel
  rw [Fresh.runFrom_bind, Fresh.runFrom_reserve]
  simp only [own]
  rw [wellFormed.fits.runFrom_assembled, wellFormed.compact_eq]

end Automaton

end PatternAutomata
