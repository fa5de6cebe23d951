import PatternAutomata.Automaton.Basic
import PatternAutomata.Consecutive

/-!
# Well-formed automata

When the parts of an automaton fit together, and what is reported when they do not.

* `Automaton.WellFormed` — every state and symbol mentioned is one of the automaton, and a
  deterministic automaton has exactly one transition for each state and symbol and none on ε;
* `Automaton.violation?` — the first rule that is broken, in a fixed order;
* `Automaton.assemble` — an automaton without empty entries, if it breaks no rule;
* `violation?_eq_none_iff` — no rule is reported as broken exactly if the automaton is well formed.
-/

namespace PatternAutomata

/-- A rule that an automaton breaks. -/
inductive Violation where
  /-- The start state is no state. -/
  | unknownStart (start : State)
  /-- These accepting states are no states. -/
  | strayAccepting (strays : SortedSet State)
  /-- An entry of the transition table has a source or an end that is no state. -/
  | unknownState (source : State) (label : Label) (ends : SortedSet State)
  /-- A transition has a symbol that is not in the alphabet. -/
  | unknownSymbol (symbol : Symbol)
  /-- A deterministic automaton has an ε transition from this state. -/
  | silentStep (source : State)
  /-- A deterministic automaton has no transition from this state on this symbol, or several. -/
  | ambiguousStep (source : State) (symbol : Symbol)
  deriving DecidableEq

/-- Numbers in square brackets with commas between them. -/
def bracketed (states : SortedSet State) : Text :=
  '[' :: joined ", ".toList (states.toList.map decimal) ++ [']']

/-- The text that reports a broken rule. -/
def Violation.message : Violation → Text
  | .unknownStart q =>
    "start state ".toList ++ decimal q ++ " is not one of the states".toList
  | .strayAccepting strays =>
    "accepting states ".toList ++ bracketed strays ++ " are not in the state set".toList
  | .unknownState q l ends =>
    "transition ".toList ++ decimal q ++ " --".toList ++ l.text ++ "--> ".toList ++ bracketed ends
      ++ " references an unknown state".toList
  | .unknownSymbol c =>
    "symbol ".toList ++ [c] ++ " is not in the alphabet".toList
  | .silentStep q =>
    "deterministic automaton has an ε transition from ".toList ++ decimal q
  | .ambiguousStep q c =>
    "deterministic automaton needs exactly one transition from ".toList ++ decimal q
      ++ " on ".toList ++ [c]

namespace Automaton

/-- The entry of the table for a source and a label names only states, and a symbol of the alphabet.
-/
structure FitsEntry (A : Automaton) (q : State) (l : Label) (ends : SortedSet State) : Prop where
  source_mem : q ∈ A.states
  ends_subset : ends ⊆ A.states
  symbol_mem : ∀ c ∈ l, c ∈ A.alphabet

/-- No ε transition, and exactly one transition for each state and symbol. -/
structure Deterministic (A : Automaton) : Prop where
  ends_none : ∀ q ∈ A.states, A.ends q none = ∅
  size_ends : ∀ q ∈ A.states, ∀ c ∈ A.alphabet, (A.ends q (some c)).size = 1

/-- The parts of the automaton fit together. -/
structure WellFormed (A : Automaton) : Prop where
  start_mem : A.start ∈ A.states
  accepting_subset : A.accepting ⊆ A.states
  fitsEntry : ∀ q l ends, (⟨q, l⟩, ends) ∈ A.transitions.entries → A.FitsEntry q l ends
  nonempty : ∀ q l ends, (⟨q, l⟩, ends) ∈ A.transitions.entries → ends.isEmpty = false
  deterministic : A.kind = .deterministic → A.Deterministic

/-- Only entries of the table make transitions. -/
theorem mem_entries_of_mem_ends {A : Automaton} {q r : State} {l : Label} (h : r ∈ A.ends q l) :
    (⟨q, l⟩, A.ends q l) ∈ A.transitions.entries := by
  unfold ends at h ⊢
  cases look : A.transitions.get? ⟨q, l⟩ with
  | none => simp [look] at h
  | some ends => exact OrderedMap.get?_eq_some_iff.1 look

theorem WellFormed.fitsEntry_of_mem_ends {A : Automaton} (hA : A.WellFormed) {q r : State}
    {l : Label} (h : r ∈ A.ends q l) : A.FitsEntry q l (A.ends q l) :=
  hA.fitsEntry q l _ (mem_entries_of_mem_ends h)

theorem WellFormed.mem_states_of_mem_ends {A : Automaton} (hA : A.WellFormed) {q r : State}
    {l : Label} (h : r ∈ A.ends q l) : r ∈ A.states :=
  (hA.fitsEntry_of_mem_ends h).ends_subset r h

/-! ### The order of the checks -/

/-- What is wrong with the start state. -/
def startViolation? (A : Automaton) : Option Violation :=
  if A.start ∈ A.states then none else some (.unknownStart A.start)

/-- What is wrong with the accepting states. -/
def acceptingViolation? (A : Automaton) : Option Violation :=
  let strays := A.accepting.sdiff A.states
  if strays.isEmpty then none else some (.strayAccepting strays)

/-- Whether the source and the ends of an entry are states.  The bounds are those of the states,
if these are consecutive. -/
def knowsStates (A : Automaton) (bounds : Option (State × State)) (q : State)
    (ends : SortedSet State) : Bool :=
  A.states.holds bounds q && ends.toList.all (A.states.holds bounds)

/-- What is wrong with one entry of the transition table: unknown states come before an unknown
symbol.  The bounds are those of the states. -/
def entryViolation? (A : Automaton) (bounds : Option (State × State)) :
    Origin × SortedSet State → Option Violation
  | (⟨q, l⟩, ends) =>
    if A.knowsStates bounds q ends then
      match l with
      | none => none
      | some c => if c ∈ A.alphabet then none else some (.unknownSymbol c)
    else some (.unknownState q l ends)

/-- What keeps the steps from one state from being determined. -/
def stateViolation? (A : Automaton) (q : State) : Option Violation :=
  if (A.ends q none).isEmpty then
    (A.alphabet.toList.find? fun c => (A.ends q (some c)).size ≠ 1).map (.ambiguousStep q)
  else some (.silentStep q)

/-- What keeps an automaton marked as deterministic from being so. -/
def determinismViolation? (A : Automaton) : Option Violation :=
  if A.isDeterministic then A.states.toList.findSome? A.stateViolation? else none

/-- The first broken rule: start state, accepting states, entries in their order, determinism. -/
def violation? (A : Automaton) : Option Violation :=
  A.startViolation?.or <| A.acceptingViolation?.or <|
    (A.transitions.entries.findSome? (A.entryViolation? A.states.span?)).or A.determinismViolation?

/-- The automaton without the entries that lead nowhere. -/
def compact (A : Automaton) : Automaton :=
  { A with transitions := A.transitions.filter fun _ ends => !ends.isEmpty }

/-- The automaton without the entries that lead nowhere, if it breaks no rule then. -/
def assemble (A : Automaton) : Except Violation Automaton :=
  match A.compact.violation? with
  | none => .ok A.compact
  | some v => .error v

/-! ### Nothing is reported exactly for well-formed automata -/

theorem startViolation?_eq_none_iff {A : Automaton} :
    A.startViolation? = none ↔ A.start ∈ A.states := by
  simp [startViolation?]

theorem acceptingViolation?_eq_none_iff {A : Automaton} :
    A.acceptingViolation? = none ↔ A.accepting ⊆ A.states := by
  have strays : (A.accepting.sdiff A.states).isEmpty = true ↔ A.accepting ⊆ A.states := by
    rw [SortedSet.isEmpty_iff]
    constructor
    · intro h q hq
      by_cases hs : q ∈ A.states
      · exact hs
      · exact absurd (SortedSet.mem_sdiff.2 ⟨hq, hs⟩) (h q)
    · intro h q hq
      exact (SortedSet.mem_sdiff.1 hq).2 (h q (SortedSet.mem_sdiff.1 hq).1)
  rw [← strays]
  simp [acceptingViolation?]

theorem knowsStates_iff {A : Automaton} {q : State} {ends : SortedSet State} :
    A.knowsStates A.states.span? q ends = true ↔ q ∈ A.states ∧ ends ⊆ A.states := by
  simp only [knowsStates, Bool.and_eq_true, List.all_eq_true, SortedSet.holds_span?]
  exact Iff.rfl

theorem entryViolation?_eq_none_iff {A : Automaton} {q : State} {l : Label}
    {ends : SortedSet State} :
    A.entryViolation? A.states.span? (⟨q, l⟩, ends) = none ↔ A.FitsEntry q l ends := by
  constructor
  · intro h
    simp only [entryViolation?] at h
    split at h
    · next known =>
      have states := knowsStates_iff.1 known
      refine ⟨states.1, states.2, fun c hc => ?_⟩
      cases hc
      simpa using h
    · exact absurd h (by simp)
  · rintro ⟨hq, he, hl⟩
    have known := knowsStates_iff.2 ⟨hq, he⟩
    cases l with
    | none => simp [entryViolation?, known]
    | some c => simp [entryViolation?, known, hl c rfl]

theorem stateViolation?_eq_none_iff {A : Automaton} {q : State} :
    A.stateViolation? q = none ↔
      A.ends q none = ∅ ∧ ∀ c ∈ A.alphabet, (A.ends q (some c)).size = 1 := by
  have silent : (A.ends q none).isEmpty = true ↔ A.ends q none = ∅ := by
    rw [SortedSet.isEmpty_iff]
    constructor
    · intro h
      exact SortedSet.ext fun a => ⟨fun ha => absurd ha (h a), fun ha => absurd ha (by simp)⟩
    · intro h a
      simp [h]
  rw [← silent]
  unfold stateViolation?
  split
  · rename_i h
    simp [h, SortedSet.mem_def]
  · rename_i h
    simp [h]

theorem determinismViolation?_eq_none_iff {A : Automaton} :
    A.determinismViolation? = none ↔ (A.kind = .deterministic → A.Deterministic) := by
  unfold determinismViolation? isDeterministic
  by_cases hk : A.kind = .deterministic
  · simp only [hk, decide_true, if_true, List.findSome?_eq_none_iff, true_implies]
    constructor
    · intro h
      exact ⟨fun q hq => (stateViolation?_eq_none_iff.1 (h q hq)).1,
        fun q hq => (stateViolation?_eq_none_iff.1 (h q hq)).2⟩
    · intro h q hq
      exact stateViolation?_eq_none_iff.2 ⟨h.ends_none q hq, h.size_ends q hq⟩
  · simp [hk]

/-- No rule is reported as broken exactly if the parts fit together. -/
theorem violation?_eq_none_iff {A : Automaton}
    (nonempty : ∀ q l ends, (⟨q, l⟩, ends) ∈ A.transitions.entries → ends.isEmpty = false) :
    A.violation? = none ↔ A.WellFormed := by
  unfold violation?
  simp only [Option.or_eq_none_iff, startViolation?_eq_none_iff, acceptingViolation?_eq_none_iff,
    determinismViolation?_eq_none_iff, List.findSome?_eq_none_iff]
  constructor
  · rintro ⟨hs, ha, he, hd⟩
    exact ⟨hs, ha, fun q l ends h => entryViolation?_eq_none_iff.1 (he _ h), nonempty, hd⟩
  · rintro ⟨hs, ha, he, -, hd⟩
    exact ⟨hs, ha, fun ⟨⟨q, l⟩, ends⟩ h => entryViolation?_eq_none_iff.2 (he q l ends h), hd⟩

theorem nonempty_compact (A : Automaton) (q : State) (l : Label) (ends : SortedSet State)
    (h : (⟨q, l⟩, ends) ∈ A.compact.transitions.entries) : ends.isEmpty = false := by
  have := (List.mem_filter.1 h).2
  simpa using this

theorem wellFormed_compact {A : Automaton} (h : A.compact.violation? = none) :
    A.compact.WellFormed :=
  (violation?_eq_none_iff A.nonempty_compact).1 h

/-- Assembling succeeds exactly if the automaton without its empty entries is well formed. -/
theorem assemble_eq_ok_iff {A B : Automaton} :
    A.assemble = .ok B ↔ A.compact.WellFormed ∧ B = A.compact := by
  rw [← violation?_eq_none_iff A.nonempty_compact]
  unfold assemble
  split <;> rename_i h <;> simp [h, eq_comm]

end Automaton

end PatternAutomata
