import PatternAutomata.Proofs.Automaton.Listing

/-!
# What is admitted as an automaton

Putting an automaton together succeeds for exactly those parts that fit together, entries that lead
nowhere aside, and otherwise reports the first thing that is wrong: the start state comes before the
accepting states, these before the entries of the table in their order, and determinism comes last.
What is kept of the table of a deterministic automaton has an entry for each state and symbol, and
no other.

* `Admits`, `Admissible` — the conditions, for one entry and for all parts;
  `admissible_iff_wellFormed_compact`;
* `EntryBroken`, `Undetermined`, `FirstBroken` — what a violation says about one entry, about
  determinism, and that it is the first one;
* `startViolation?_eq_some_iff`, `entriesViolation?_eq_some_iff`, … — what each stage reports;
* `firstBroken_of_assemble_eq_error`, `exists_assemble_eq_error` — only the first violation is
  reported, and it is, but for the order of the violations of determinism among each other;
* `WellFormed.mem_keys_iff`, `WellFormed.transitionCount_of_deterministic` — the table of a
  deterministic automaton;
* `assembling_admits_or_reports` — putting together as a whole.
-/

namespace PatternAutomata

/-- Whether a violation is one of determinism. -/
def Violation.AboutDeterminism : Violation → Prop
  | .silentStep _ => True
  | .ambiguousStep _ _ => True
  | _ => False

namespace Automaton

variable {A B : Automaton} {q : State} {l : Label} {ends : SortedSet State} {v : Violation}

/-! ### The conditions -/

/-- An entry leads nowhere, or it names only states, and a symbol of the alphabet. -/
def Admits (A : Automaton) (e : Origin × SortedSet State) : Prop :=
  e.2 ≠ ∅ → A.FitsEntry e.1.source e.1.label e.2

/-- The parts fit together, entries that lead nowhere aside. -/
structure Admissible (A : Automaton) : Prop where
  start_mem : A.start ∈ A.states
  accepting_subset : A.accepting ⊆ A.states
  admits : ∀ e ∈ A.transitions.entries, A.Admits e
  silent : A.kind = .deterministic →
    ∀ q ends, (⟨q, none⟩, ends) ∈ A.transitions.entries → ends = ∅
  steps : A.kind = .deterministic →
    ∀ q ∈ A.states, ∀ c ∈ A.alphabet, ∃! r, r ∈ A.ends q (some c)

/-- The entries that are kept are those that lead somewhere. -/
theorem mem_entries_compact_iff :
    (⟨q, l⟩, ends) ∈ A.compact.transitions.entries ↔
      (⟨q, l⟩, ends) ∈ A.transitions.entries ∧ ends ≠ ∅ := by
  show _ ∈ A.transitions.entries.filter (fun e => !e.2.isEmpty) ↔ _
  rw [List.mem_filter, Bool.not_eq_true', SortedSet.isEmpty_eq_false_iff_ne_empty]

/-- The conditions say that what is kept is well formed. -/
theorem admissible_iff_wellFormed_compact : A.Admissible ↔ A.compact.WellFormed := by
  constructor
  · intro h
    refine ⟨h.start_mem, h.accepting_subset, ?_, A.nonempty_compact, ?_⟩
    · intro q l ends mem
      obtain ⟨listed, nonempty⟩ := mem_entries_compact_iff.1 mem
      obtain ⟨source, targets, symbols⟩ := h.admits _ listed nonempty
      exact ⟨source, targets, symbols⟩
    · intro kind
      constructor
      · intro q _
        rw [SortedSet.eq_empty_iff]
        intro r hr
        rw [ends_compact] at hr
        have none := h.silent kind q _ (mem_entries_of_mem_ends hr)
        rw [none] at hr
        exact SortedSet.not_mem_empty r hr
      · intro q hq c hc
        rw [ends_compact, SortedSet.size_eq_one_iff_existsUnique]
        exact h.steps kind q hq c hc
  · intro h
    refine ⟨h.start_mem, h.accepting_subset, ?_, ?_, ?_⟩
    · intro e mem nonempty
      obtain ⟨source, targets, symbols⟩ :=
        h.fitsEntry _ _ _ (mem_entries_compact_iff.2 ⟨mem, nonempty⟩)
      exact ⟨source, targets, symbols⟩
    · intro kind q ends mem
      by_contra nonempty
      have kept := mem_entries_compact_iff.2 ⟨mem, nonempty⟩
      have source := (h.fitsEntry q none ends kept).source_mem
      exact nonempty ((ends_eq_of_mem_entries kept).symm.trans
        ((h.deterministic kind).ends_none q source))
    · intro kind q hq c hc
      rw [← SortedSet.size_eq_one_iff_existsUnique, ← ends_compact]
      exact (h.deterministic kind).size_ends q hq c hc

theorem exists_assemble_eq_ok_iff : (∃ B, A.assemble = .ok B) ↔ A.Admissible := by
  rw [admissible_iff_wellFormed_compact]
  constructor
  · rintro ⟨B, made⟩
    exact (assemble_eq_ok_iff.1 made).1
  · intro h
    exact ⟨_, assemble_eq_ok_iff.2 ⟨h, rfl⟩⟩

/-! ### Violations -/

/-- What a violation says about one entry: an unknown state comes before an unknown symbol. -/
inductive EntryBroken (A : Automaton) : Origin × SortedSet State → Violation → Prop
  | unknownState {q : State} {l : Label} {ends : SortedSet State}
      (stray : ¬ (q ∈ A.states ∧ ends ⊆ A.states)) :
      EntryBroken A (⟨q, l⟩, ends) (.unknownState q l ends)
  | unknownSymbol {q : State} {c : Symbol} {ends : SortedSet State}
      (known : q ∈ A.states ∧ ends ⊆ A.states) (stray : c ∉ A.alphabet) :
      EntryBroken A (⟨q, some c⟩, ends) (.unknownSymbol c)

/-- What a violation says about determinism. -/
inductive Undetermined (A : Automaton) : Violation → Prop
  | silentStep {q : State} (hq : q ∈ A.states) (silent : A.ends q none ≠ ∅) :
      Undetermined A (.silentStep q)
  | ambiguousStep {q : State} {c : Symbol} (hq : q ∈ A.states) (hc : c ∈ A.alphabet)
      (ambiguous : ¬ ∃! r, r ∈ A.ends q (some c)) : Undetermined A (.ambiguousStep q c)

/-- A violation is the first one: nothing is wrong with what comes before. -/
inductive FirstBroken (A : Automaton) : Violation → Prop
  | start (stray : A.start ∉ A.states) : FirstBroken A (.unknownStart A.start)
  | accepting (start : A.start ∈ A.states) (strays : ¬ A.accepting ⊆ A.states) :
      FirstBroken A (.strayAccepting (A.accepting.sdiff A.states))
  | entry {v : Violation} (start : A.start ∈ A.states) (accepting : A.accepting ⊆ A.states)
      (earlier : List (Origin × SortedSet State)) (e : Origin × SortedSet State)
      (later : List (Origin × SortedSet State))
      (table : A.transitions.entries = earlier ++ e :: later)
      (admitted : ∀ d ∈ earlier, A.Admits d) (nonempty : e.2 ≠ ∅) (broken : A.EntryBroken e v) :
      FirstBroken A v
  | determinism {v : Violation} (start : A.start ∈ A.states)
      (accepting : A.accepting ⊆ A.states)
      (admitted : ∀ e ∈ A.transitions.entries, A.Admits e) (kind : A.kind = .deterministic)
      (undetermined : A.Undetermined v) : FirstBroken A v

theorem Undetermined.aboutDeterminism (h : A.Undetermined v) : v.AboutDeterminism := by
  cases h with
  | silentStep _ _ => trivial
  | ambiguousStep _ _ _ => trivial

/-! ### What each stage reports -/

theorem startViolation?_eq_some_iff :
    A.startViolation? = some v ↔ A.start ∉ A.states ∧ v = .unknownStart A.start := by
  unfold startViolation?
  by_cases h : A.start ∈ A.states
  · simp [h]
  · simp [h, eq_comm]

theorem acceptingViolation?_eq_some_iff :
    A.acceptingViolation? = some v ↔
      ¬ A.accepting ⊆ A.states ∧ v = .strayAccepting (A.accepting.sdiff A.states) := by
  rw [← acceptingViolation?_eq_none_iff]
  unfold acceptingViolation?
  by_cases h : (A.accepting.sdiff A.states).isEmpty = true
  · simp [h]
  · simp [h, eq_comm]

theorem entryViolation?_eq_some_iff {e : Origin × SortedSet State} :
    A.entryViolation? A.states.span? e = some v ↔ A.EntryBroken e v := by
  obtain ⟨⟨q, l⟩, ends⟩ := e
  simp only [entryViolation?]
  constructor
  · intro h
    split at h
    · next known =>
      cases l with
      | none => cases h
      | some c =>
        by_cases hc : c ∈ A.alphabet
        · simp [hc] at h
        · simp only [hc, if_false, Option.some.injEq] at h
          subst h
          exact .unknownSymbol (knowsStates_iff.1 known) hc
    · next unknown =>
      cases h
      exact .unknownState fun known => unknown (knowsStates_iff.2 known)
  · intro h
    cases h with
    | unknownState stray => rw [if_neg fun known => stray (knowsStates_iff.1 known)]
    | unknownSymbol known stray =>
      rw [if_pos (knowsStates_iff.2 known)]
      exact if_neg stray

/-- The first entry that is kept and broken is reported. -/
theorem entriesViolation?_eq_some_iff :
    A.compact.transitions.entries.findSome? (A.compact.entryViolation? A.compact.states.span?)
        = some v ↔
      ∃ earlier e later, A.transitions.entries = earlier ++ e :: later ∧
        (∀ d ∈ earlier, A.Admits d) ∧ e.2 ≠ ∅ ∧ A.EntryBroken e v := by
  have admits : ∀ d : Origin × SortedSet State,
      A.Admits d ↔ ((!d.2.isEmpty) = true → A.entryViolation? A.states.span? d = none) := by
    intro d
    rw [Bool.not_eq_true', SortedSet.isEmpty_eq_false_iff_ne_empty]
    exact imp_congr_right fun _ => entryViolation?_eq_none_iff.symm
  show (A.transitions.entries.filter fun e => !e.2.isEmpty).findSome?
    (A.entryViolation? A.states.span?) = some v ↔ _
  rw [findSome?_filter_eq_some_iff]
  simp only [admits, entryViolation?_eq_some_iff, Bool.not_eq_true',
    SortedSet.isEmpty_eq_false_iff_ne_empty]

theorem undetermined_of_stateViolation?_eq_some (hq : q ∈ A.states)
    (h : A.stateViolation? q = some v) : A.Undetermined v := by
  unfold stateViolation? at h
  split at h
  · obtain ⟨c, found, rfl⟩ := Option.map_eq_some_iff.1 h
    have several : decide ((A.ends q (some c)).size ≠ 1) = true :=
      List.find?_some (p := fun c => decide ((A.ends q (some c)).size ≠ 1)) found
    refine .ambiguousStep hq (List.mem_of_find?_eq_some found) ?_
    rw [← SortedSet.size_eq_one_iff_existsUnique]
    exact of_decide_eq_true several
  · next silent =>
    cases h
    refine .silentStep hq fun none => silent ?_
    exact SortedSet.isEmpty_iff_eq_empty.2 none

theorem undetermined_of_determinismViolation?_eq_some (h : A.determinismViolation? = some v) :
    A.kind = .deterministic ∧ A.Undetermined v := by
  unfold determinismViolation? at h
  split at h
  · next asked =>
    obtain ⟨q, hq, found⟩ := List.exists_of_findSome?_eq_some h
    exact ⟨of_decide_eq_true asked, undetermined_of_stateViolation?_eq_some hq found⟩
  · cases h

/-- Determinism is a matter of the transitions, not of the entries. -/
theorem undetermined_compact_iff : A.compact.Undetermined v ↔ A.Undetermined v := by
  constructor
  · intro h
    cases h with
    | silentStep hq silent => exact .silentStep hq (A.ends_compact _ _ ▸ silent)
    | ambiguousStep hq hc ambiguous =>
      exact .ambiguousStep hq hc (A.ends_compact _ _ ▸ ambiguous)
  · intro h
    cases h with
    | silentStep hq silent =>
      refine .silentStep hq ?_
      rwa [ends_compact]
    | ambiguousStep hq hc ambiguous =>
      refine .ambiguousStep hq hc ?_
      rwa [ends_compact]

/-! ### The first violation -/

theorem assemble_eq_error_iff : A.assemble = .error v ↔ A.compact.violation? = some v := by
  unfold assemble
  split
  · next none => simp [none]
  · next u found => simp [found]

/-- Nothing but the first violation is reported. -/
theorem firstBroken_of_assemble_eq_error (h : A.assemble = .error v) : A.FirstBroken v := by
  rw [assemble_eq_error_iff, violation?] at h
  rcases Option.or_eq_some_iff.1 h with h | ⟨started, h⟩
  · obtain ⟨stray, rfl⟩ := startViolation?_eq_some_iff.1 h
    exact .start stray
  have start := startViolation?_eq_none_iff.1 started
  rcases Option.or_eq_some_iff.1 h with h | ⟨accepted, h⟩
  · obtain ⟨strays, rfl⟩ := acceptingViolation?_eq_some_iff.1 h
    exact .accepting start strays
  have accepting := acceptingViolation?_eq_none_iff.1 accepted
  rcases Option.or_eq_some_iff.1 h with h | ⟨entered, h⟩
  · obtain ⟨earlier, e, later, table, admitted, nonempty, broken⟩ :=
      entriesViolation?_eq_some_iff.1 h
    exact .entry start accepting earlier e later table admitted nonempty broken
  · obtain ⟨kind, undetermined⟩ := undetermined_of_determinismViolation?_eq_some h
    refine .determinism start accepting ?_ kind (undetermined_compact_iff.1 undetermined)
    intro e mem nonempty
    have kept := mem_entries_compact_iff.2 ⟨mem, nonempty⟩
    obtain ⟨source, targets, symbols⟩ :=
      entryViolation?_eq_none_iff.1 (List.findSome?_eq_none_iff.1 entered _ kept)
    exact ⟨source, targets, symbols⟩

theorem EntryBroken.not_fitsEntry {e : Origin × SortedSet State} (h : A.EntryBroken e v) :
    ¬ A.FitsEntry e.1.source e.1.label e.2 := by
  intro fits
  cases h with
  | unknownState stray => exact stray ⟨fits.source_mem, fits.ends_subset⟩
  | unknownSymbol _ stray => exact stray (fits.symbol_mem _ rfl)

/-- A violation of determinism keeps the parts from being admissible. -/
theorem Undetermined.not_admissible (h : A.Undetermined v) (kind : A.kind = .deterministic) :
    ¬ A.Admissible := by
  intro admissible
  cases h with
  | silentStep _ silent =>
    obtain ⟨r, hr⟩ := SortedSet.ne_empty_iff.1 silent
    exact silent (admissible.silent kind _ _ (mem_entries_of_mem_ends hr))
  | ambiguousStep hq hc ambiguous => exact ambiguous (admissible.steps kind _ hq _ hc)

/-- The first violation is reported; of several violations of determinism, one is. -/
theorem FirstBroken.exists_assemble_eq_error (h : A.FirstBroken v) :
    ∃ u, A.assemble = .error u ∧ (u = v ∨ u.AboutDeterminism ∧ v.AboutDeterminism) := by
  cases h with
  | start stray =>
    refine ⟨_, assemble_eq_error_iff.2 ?_, Or.inl rfl⟩
    exact Option.or_eq_some_iff.2 (Or.inl (startViolation?_eq_some_iff.2 ⟨stray, rfl⟩))
  | accepting start strays =>
    refine ⟨_, assemble_eq_error_iff.2 ?_, Or.inl rfl⟩
    refine Option.or_eq_some_iff.2 (Or.inr ⟨startViolation?_eq_none_iff.2 start, ?_⟩)
    exact Option.or_eq_some_iff.2 (Or.inl (acceptingViolation?_eq_some_iff.2 ⟨strays, rfl⟩))
  | entry start accepting earlier e later table admitted nonempty broken =>
    refine ⟨v, assemble_eq_error_iff.2 ?_, Or.inl rfl⟩
    refine Option.or_eq_some_iff.2 (Or.inr ⟨startViolation?_eq_none_iff.2 start, ?_⟩)
    refine Option.or_eq_some_iff.2 (Or.inr ⟨acceptingViolation?_eq_none_iff.2 accepting, ?_⟩)
    refine Option.or_eq_some_iff.2 (Or.inl (entriesViolation?_eq_some_iff.2 ?_))
    exact ⟨earlier, e, later, table, admitted, nonempty, broken⟩
  | determinism start accepting admitted kind undetermined =>
    cases made : A.assemble with
    | ok B =>
      exact absurd (exists_assemble_eq_ok_iff.1 ⟨B, made⟩) (undetermined.not_admissible kind)
    | error u =>
      refine ⟨u, rfl, Or.inr ⟨?_, undetermined.aboutDeterminism⟩⟩
      -- nothing that comes before determinism is wrong
      cases firstBroken_of_assemble_eq_error made with
      | start stray => exact absurd start stray
      | accepting _ strays => exact absurd accepting strays
      | entry _ _ earlier e later table _ nonempty broken =>
        have mem : e ∈ A.transitions.entries := by
          rw [table]
          exact List.mem_append_right _ List.mem_cons_self
        exact absurd (admitted e mem nonempty) broken.not_fitsEntry
      | determinism _ _ _ _ undetermined => exact undetermined.aboutDeterminism

/-! ### The table of a deterministic automaton -/

/-- There is an entry for each state and symbol, and no other. -/
theorem WellFormed.mem_keys_iff (hB : B.WellFormed) (kind : B.kind = .deterministic) :
    ⟨q, l⟩ ∈ B.transitions.keys ↔ q ∈ B.states ∧ ∃ c ∈ B.alphabet, l = some c := by
  obtain ⟨silent, steps⟩ := hB.deterministic kind
  constructor
  · intro h
    obtain ⟨⟨origin, ends⟩, mem, same⟩ := List.mem_map.1 h
    obtain rfl : origin = ⟨q, l⟩ := same
    have fits := hB.fitsEntry q l ends mem
    refine ⟨fits.source_mem, ?_⟩
    cases l with
    | none =>
      have nothing := (ends_eq_of_mem_entries mem).symm.trans (silent q fits.source_mem)
      have some := hB.nonempty q none ends mem
      rw [nothing] at some
      cases some
    | some c => exact ⟨c, fits.symbol_mem c rfl, rfl⟩
  · rintro ⟨hq, c, hc, rfl⟩
    obtain ⟨r, hr, _⟩ := SortedSet.size_eq_one_iff_existsUnique.1 (steps q hq c hc)
    exact List.mem_map.2 ⟨_, mem_entries_of_mem_ends hr, rfl⟩

/-- So the table counts one transition for each state and symbol. -/
theorem WellFormed.transitionCount_of_deterministic (hB : B.WellFormed)
    (kind : B.kind = .deterministic) : B.transitionCount = B.states.size * B.alphabet.size := by
  rw [← hB.length_listing, hB.length_listing_of_deterministic kind]

/-! ### The whole -/

/-- **Putting together.**  It succeeds for exactly the parts that fit together: the start state and
the accepting states are states, every entry that leads somewhere names only states and, unless it
is for ε, a symbol of the alphabet, and if the automaton is deterministic, no entry for ε leads
anywhere and there is exactly one end for each state and symbol.  The result is what was given
without the entries that lead nowhere; if it is deterministic, its table has an entry for each state
and symbol, and no other.  Otherwise the first violation is reported, where the start state comes
before the accepting states, these before the entries in their order, in each of which an unknown
state comes before an unknown symbol, and these before determinism. -/
theorem assembling_admits_or_reports (A : Automaton) :
    ((∃ B, A.assemble = .ok B) ↔ A.Admissible) ∧
    (∀ B, A.assemble = .ok B → B = A.compact ∧ B.WellFormed ∧
      (A.kind = .deterministic →
        (∀ q l, ⟨q, l⟩ ∈ B.transitions.keys ↔ q ∈ A.states ∧ ∃ c ∈ A.alphabet, l = some c) ∧
        B.transitionCount = A.stateCount * A.alphabet.size)) ∧
    (∀ v, A.assemble = .error v → A.FirstBroken v) ∧
    ∀ v, A.FirstBroken v →
      ∃ u, A.assemble = .error u ∧ (u = v ∨ u.AboutDeterminism ∧ v.AboutDeterminism) := by
  refine ⟨exists_assemble_eq_ok_iff, ?_, ?_, ?_⟩
  · intro B made
    obtain ⟨wellFormed, rfl⟩ := assemble_eq_ok_iff.1 made
    refine ⟨rfl, wellFormed, fun kind => ⟨?_, ?_⟩⟩
    · exact fun q l => wellFormed.mem_keys_iff kind
    · exact wellFormed.transitionCount_of_deterministic kind
  · exact fun v made => firstBroken_of_assemble_eq_error made
  · exact fun v first => first.exists_assemble_eq_error

/-- The parts of a deterministic automaton, with an entry for no state and no symbol of it that
leads nowhere. -/
def shuttle : Automaton :=
  { alphabet := .singleton 'a'
    states := .ofList [0, 1]
    transitions := .ofList
      [(⟨0, some 'a'⟩, .singleton 1), (⟨7, some 'b'⟩, ∅), (⟨1, some 'a'⟩, .singleton 0)]
    start := 0
    accepting := .singleton 1
    kind := .deterministic }

/-- The same with another table: a symbol outside the alphabet, then a state that there is not, and
nothing is determined. -/
def derailed : Automaton :=
  { shuttle with
    transitions := .ofList
      [(⟨7, some 'b'⟩, ∅), (⟨0, some 'b'⟩, .singleton 1), (⟨1, some 'a'⟩, .singleton 9)] }

/-- `shuttle` is put together without the entry that leads nowhere; of what is wrong with
`derailed`, the symbol is reported. -/
theorem assembling_shuttle_and_derailed :
    (∃ B, shuttle.assemble = .ok B ∧ B.transitionCount = 2 ∧
      (⟨7, some 'b'⟩ : Origin) ∉ B.transitions.keys) ∧
    derailed.assemble = .error (.unknownSymbol 'b') := by
  constructor
  · obtain ⟨succeeds, result, -, -⟩ := assembling_admits_or_reports shuttle
    have wellFormed : shuttle.compact.WellFormed := wellFormed_compact (by decide)
    obtain ⟨B, made⟩ := succeeds.2 (admissible_iff_wellFormed_compact.2 wellFormed)
    obtain ⟨keys, count⟩ := (result B made).2.2 rfl
    refine ⟨B, made, count, ?_⟩
    rw [keys]
    exact fun mem => absurd mem.1 (by decide)
  · obtain ⟨-, -, -, reports⟩ := assembling_admits_or_reports derailed
    have admitted : ∀ d ∈ [((⟨7, some 'b'⟩ : Origin), (∅ : SortedSet State))],
        derailed.Admits d := by
      intro d hd nonempty
      rw [List.mem_singleton.1 hd] at nonempty
      exact absurd rfl nonempty
    have first : derailed.FirstBroken (.unknownSymbol 'b') :=
      .entry (by decide) (by decide) _ (⟨0, some 'b'⟩, .singleton 1) _ rfl admitted (by decide)
        (.unknownSymbol (by decide) (by decide))
    obtain ⟨u, made, rfl | ⟨-, about⟩⟩ := reports _ first
    · exact made
    · exact about.elim

end Automaton

end PatternAutomata
