import PatternAutomata.Automaton.WellFormed
import PatternAutomata.Proofs.Data.OrderedMap
import PatternAutomata.Proofs.Data.SortedSet
import PatternAutomata.Supply

/-!
# Assembling by transitions

Whether an automaton can be put together depends on its transitions alone, not on how its table is
made: entries that lead nowhere are dropped first.

* `Automaton.Fits` — the start state, the accepting states and all transitions fit together;
* `ends_compact` — dropping the entries that lead nowhere drops no transition;
* `Fits.wellFormed_compact`, `Fits.runFrom_assembled` — an automaton that fits is put together;
* `ends_of_mem_table`, `exists_mem_table` — the transitions of a table made from a list.
-/

namespace PatternAutomata

namespace Automaton

variable {A : Automaton} {q r : State} {l : Label}

/-- The start state, the accepting states and all transitions fit together. -/
structure Fits (A : Automaton) : Prop where
  start_mem : A.start ∈ A.states
  accepting_subset : A.accepting ⊆ A.states
  step : ∀ q l r, r ∈ A.ends q l → q ∈ A.states ∧ r ∈ A.states ∧ ∀ c ∈ l, c ∈ A.alphabet
  deterministic : A.kind = .deterministic → A.Deterministic

theorem ends_eq_of_mem_entries {ends : SortedSet State}
    (h : (⟨q, l⟩, ends) ∈ A.transitions.entries) : A.ends q l = ends := by
  show (A.transitions.get? ⟨q, l⟩).getD ∅ = ends
  rw [OrderedMap.get?_eq_some_iff.2 h]
  rfl

/-! ### Dropping entries that lead nowhere -/

@[simp] theorem compact_alphabet (A : Automaton) : A.compact.alphabet = A.alphabet := rfl
@[simp] theorem compact_states (A : Automaton) : A.compact.states = A.states := rfl
@[simp] theorem compact_start (A : Automaton) : A.compact.start = A.start := rfl
@[simp] theorem compact_accepting (A : Automaton) : A.compact.accepting = A.accepting := rfl
@[simp] theorem compact_kind (A : Automaton) : A.compact.kind = A.kind := rfl
@[simp] theorem compact_names (A : Automaton) : A.compact.names = A.names := rfl

@[simp] theorem ends_compact (A : Automaton) (q : State) (l : Label) :
    A.compact.ends q l = A.ends q l := by
  show ((A.transitions.filter fun _ ends => !ends.isEmpty).get? ⟨q, l⟩).getD ∅
    = (A.transitions.get? ⟨q, l⟩).getD ∅
  rw [OrderedMap.get?_filter]
  cases A.transitions.get? ⟨q, l⟩ with
  | none => rfl
  | some e =>
    cases he : e.isEmpty with
    | false => simp [Option.filter, he]
    | true => simpa [Option.filter, he] using (SortedSet.isEmpty_iff_eq_empty.1 he).symm

/-- If no entry leads nowhere, none is dropped. -/
theorem compact_eq_self
    (nonempty : ∀ q l ends, (⟨q, l⟩, ends) ∈ A.transitions.entries → ends.isEmpty = false) :
    A.compact = A := by
  have kept : (A.transitions.filter fun _ ends => !ends.isEmpty) = A.transitions := by
    apply OrderedMap.filter_eq_self
    intro origin ends mem
    rw [nonempty origin.source origin.label ends mem]
    rfl
  unfold compact
  rw [kept]

/-- An automaton that fits is well formed once the entries that lead nowhere are dropped. -/
theorem Fits.wellFormed_compact (h : A.Fits) : A.compact.WellFormed where
  start_mem := h.start_mem
  accepting_subset := h.accepting_subset
  fitsEntry := by
    intro q l ends mem
    have same := ends_eq_of_mem_entries mem
    rw [ends_compact] at same
    have fits : ∀ r, r ∈ ends → q ∈ A.states ∧ r ∈ A.states ∧ ∀ c ∈ l, c ∈ A.alphabet := by
      intro r hr
      rw [← same] at hr
      exact h.step q l r hr
    obtain ⟨r, hr⟩ := SortedSet.isEmpty_eq_false_iff.1 (A.nonempty_compact q l ends mem)
    exact ⟨(fits r hr).1, fun e he => (fits e he).2.1, (fits r hr).2.2⟩
  nonempty := A.nonempty_compact
  deterministic := by
    intro hk
    obtain ⟨silent, steps⟩ := h.deterministic hk
    constructor
    · intro q hq
      rw [ends_compact]
      exact silent q hq
    · intro q hq c hc
      rw [ends_compact]
      exact steps q hq c hc

theorem Fits.assemble_eq (h : A.Fits) : A.assemble = .ok A.compact :=
  assemble_eq_ok_iff.2 ⟨h.wellFormed_compact, rfl⟩

theorem Fits.runFrom_assembled (h : A.Fits) (counter : State) :
    (assembled A).runFrom counter = (.ok A.compact, counter) := by
  rw [Fresh.runFrom_assembled, h.assemble_eq]
  rfl

/-- Neither another state has transitions, nor are there any on another symbol. -/
theorem WellFormed.ends_eq_empty (hA : A.WellFormed)
    (stray : q ∈ A.states → ∃ c ∈ l, c ∉ A.alphabet) : A.ends q l = ∅ := by
  rw [SortedSet.eq_empty_iff]
  intro r hr
  have entry := hA.fitsEntry_of_mem_ends hr
  obtain ⟨c, hc, outside⟩ := stray entry.source_mem
  exact outside (entry.symbol_mem c hc)

theorem WellFormed.fits (h : A.WellFormed) : A.Fits where
  start_mem := h.start_mem
  accepting_subset := h.accepting_subset
  step := by
    intro q l r hr
    have entry := h.fitsEntry_of_mem_ends hr
    exact ⟨entry.source_mem, entry.ends_subset r hr, entry.symbol_mem⟩
  deterministic := h.deterministic

/-! ### Tables made from lists -/

variable {table : List (Origin × SortedSet State)}

theorem ends_of_mem_table (hA : A.transitions = .ofList table) {ends : SortedSet State}
    (mem : (⟨q, l⟩, ends) ∈ table) (unique : ∀ e, (⟨q, l⟩, e) ∈ table → e = ends) :
    A.ends q l = ends := by
  show (A.transitions.get? ⟨q, l⟩).getD ∅ = ends
  rw [hA, OrderedMap.get?_ofList_eq_some mem unique]
  rfl

/-- A transition of a table made from a list stands in the list. -/
theorem exists_mem_table (hA : A.transitions = .ofList table) (h : r ∈ A.ends q l) :
    ∃ ends, (⟨q, l⟩, ends) ∈ table ∧ A.ends q l = ends := by
  have entry := mem_entries_of_mem_ends h
  rw [hA] at entry
  exact ⟨_, OrderedMap.mem_of_get?_ofList (OrderedMap.get?_eq_some_iff.2 entry), rfl⟩

end Automaton

end PatternAutomata
