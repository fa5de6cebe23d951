import PatternAutomata.Automaton.Render
import PatternAutomata.Proofs.Automaton.Listing
import PatternAutomata.Proofs.Text.Legibility

/-!
# What the JSON text of an automaton tells

The JSON text tells everything but the names of the states, and one thing about the transitions: ε
is written like the symbol that looks like it.  Where the two cannot be taken for each other, the
text tells the whole table.

* `Transition.shown` — what is written of a transition;
* `jsonParts`, `writeParts`, `json_eq_writeParts` — the text is written from what it tells;
* `legible_writeParts`, `json_eq_iff` — and tells no less;
* `listing_eq_of_map_shown_eq` — transitions are told where ε and the symbol are not confused;
* `WellFormed.get?_eq_of_listing_eq` — the listed transitions tell the table;
* `json_tells_automata` — the whole.
-/

namespace PatternAutomata

/-- What is written of a transition: its source, the sign of its label, and its end. -/
def Transition.shown (t : Transition) : State × Symbol × State := (t.source, t.label.sign, t.target)

theorem Kind.text_injective (a b : Kind) (h : a.text = b.text) : a = b := by
  cases a <;> cases b
  · rfl
  · exact absurd h (by decide)
  · exact absurd h (by decide)
  · rfl

namespace Automaton

open JsonText

variable {A B : Automaton} {l m : Label}

/-! ### The text as a whole -/

/-- What is told of an automaton. -/
abbrev JsonParts : Type :=
  Kind × SortedSet State × SortedSet Symbol × State × SortedSet State ×
    List (State × Symbol × State)

/-- What the JSON text of an automaton tells. -/
def jsonParts (A : Automaton) : JsonParts :=
  (A.kind, A.states, A.alphabet, A.start, A.accepting, A.listing.map Transition.shown)

/-- What is shown of a transition, as an array. -/
def writeShown (t : State × Symbol × State) : Text :=
  '[' :: (number t.1 ++ ", ".toList ++ (string [t.2.1] ++ ", ".toList ++ number t.2.2)) ++ [']']

/-- What is told of an automaton, as an object. -/
def writeParts (p : JsonParts) : Text :=
  '\x7b' ::
    (member ("kind".toList, string p.1.text) ++ ", ".toList ++
    (member ("states".toList, jsonStates p.2.1) ++ ", ".toList ++
    (member ("symbols".toList, array (p.2.2.1.toList.map fun c => string [c])) ++ ", ".toList ++
    (member ("start_state".toList, number p.2.2.2.1) ++ ", ".toList ++
    (member ("accepting_states".toList, jsonStates p.2.2.2.2.1) ++ ", ".toList ++
    member ("transitions".toList, array (p.2.2.2.2.2.map writeShown))))))) ++ ['\x7d']

theorem json_eq_writeParts (A : Automaton) : A.json = writeParts A.jsonParts := by
  have transitions : A.listing.map jsonTransition =
      (A.listing.map Transition.shown).map writeShown := by
    rw [List.map_map]
    rfl
  unfold json
  rw [transitions]
  rfl

theorem legible_kind : Legible fun k : Kind => string k.text :=
  legible_string.comap Kind.text_injective

theorem legible_symbol : Legible fun c : Symbol => string [c] :=
  legible_string.comap fun _ _ same => (List.cons.inj same).1

theorem legible_jsonStates : Legible jsonStates :=
  legible_number.array.comap fun _ _ => SortedSet.eq_of_toList_eq

theorem legible_symbols :
    Legible fun s : SortedSet Symbol => array (s.toList.map fun c => string [c]) :=
  legible_symbol.array.comap fun _ _ => SortedSet.eq_of_toList_eq

theorem legible_writeShown : Legible writeShown :=
  (legible_number.pair (legible_symbol.pair legible_number rfl [' ']) rfl [' ']).enclosed
    (c := '[') (d := ']') (by decide) rfl

/-- Different things are told by different texts. -/
theorem legible_writeParts : Legible writeParts :=
  ((legible_kind.member _).pair
    ((legible_jsonStates.member _).pair
      ((legible_symbols.member _).pair
        ((legible_number.member _).pair
          ((legible_jsonStates.member _).pair
            (legible_writeShown.array.member _) rfl [' '])
          rfl [' '])
        rfl [' '])
      rfl [' '])
    rfl [' ']).enclosed (c := '\x7b') (d := '\x7d') (by decide) rfl

/-- The JSON text tells the kind, the states, the alphabet, the start state, the accepting states
and what is shown of the listed transitions, and nothing else. -/
theorem json_eq_iff :
    A.json = B.json ↔ A.kind = B.kind ∧ A.states = B.states ∧ A.alphabet = B.alphabet ∧
      A.start = B.start ∧ A.accepting = B.accepting ∧
      A.listing.map Transition.shown = B.listing.map Transition.shown := by
  have parts : A.jsonParts = B.jsonParts ↔ A.kind = B.kind ∧ A.states = B.states ∧
      A.alphabet = B.alphabet ∧ A.start = B.start ∧ A.accepting = B.accepting ∧
      A.listing.map Transition.shown = B.listing.map Transition.shown := by
    simp only [jsonParts, Prod.mk.injEq]
  rw [← parts, json_eq_writeParts, json_eq_writeParts]
  constructor
  · exact legible_writeParts.injective
  · exact congrArg writeParts

/-! ### The listed transitions -/

/-- The signs of two labels tell them if neither is ε, or neither is the symbol that looks like it.
-/
theorem label_eq_of_sign_eq (h : l.sign = m.sign)
    (apart : l ≠ none ∧ m ≠ none ∨ l ≠ some epsilonSign ∧ m ≠ some epsilonSign) : l = m := by
  cases l with
  | none =>
    cases m with
    | none => rfl
    | some d =>
      have sign : epsilonSign = d := h
      rcases apart with ⟨silent, _⟩ | ⟨_, other⟩
      · exact absurd rfl silent
      · exact absurd (congrArg some sign.symm) other
  | some c =>
    cases m with
    | none =>
      have sign : c = epsilonSign := h
      rcases apart with ⟨_, silent⟩ | ⟨other, _⟩
      · exact absurd rfl silent
      · exact absurd (congrArg some sign) other
    | some d => exact congrArg some h

/-- Transitions are told by what is shown of them if none of them is on ε, or none on the symbol
that looks like it. -/
theorem listing_eq_of_map_shown_eq
    (apart : (∀ t ∈ A.listing ++ B.listing, t.label ≠ none) ∨
      ∀ t ∈ A.listing ++ B.listing, t.label ≠ some epsilonSign)
    (h : A.listing.map Transition.shown = B.listing.map Transition.shown) :
    A.listing = B.listing := by
  refine eq_of_map_eq_map ?_ h
  rintro ⟨q, l, r⟩ hs ⟨p, m, s⟩ ht same
  have left := List.mem_append_left B.listing hs
  have right := List.mem_append_right A.listing ht
  obtain ⟨source, rest⟩ := Prod.mk.inj same
  obtain ⟨sign, target⟩ := Prod.mk.inj rest
  have label : l = m := by
    apply label_eq_of_sign_eq sign
    exact apart.imp (fun silent => ⟨silent _ left, silent _ right⟩)
      fun symbol => ⟨symbol _ left, symbol _ right⟩
  have source : q = p := source
  have target : r = s := target
  rw [source, label, target]

/-- A deterministic automaton has no transitions on ε. -/
theorem WellFormed.label_ne_none (hA : A.WellFormed) (kind : A.kind = .deterministic)
    {t : Transition} (ht : t ∈ A.listing) : t.label ≠ none := by
  intro silent
  obtain ⟨source, _, step⟩ := mem_listing.1 ht
  rw [silent, (hA.deterministic kind).ends_none _ source] at step
  exact SortedSet.not_mem_empty _ step

theorem label_ne_of_not_mem_alphabet {c : Symbol} (hc : c ∉ A.alphabet) {t : Transition}
    (ht : t ∈ A.listing) : t.label ≠ some c := by
  intro label
  obtain ⟨_, covered, _⟩ := mem_listing.1 ht
  exact hc (mem_labels_iff.1 covered c label)

/-- A table has an entry exactly where transitions start. -/
theorem WellFormed.get?_eq_some_iff (hA : A.WellFormed) {q : State} {ends : SortedSet State} :
    A.transitions.get? ⟨q, l⟩ = some ends ↔ A.ends q l = ends ∧ ends ≠ ∅ := by
  constructor
  · intro look
    have entry := OrderedMap.get?_eq_some_iff.1 look
    have nonempty := hA.nonempty q l ends entry
    exact ⟨ends_eq_of_mem_entries entry, SortedSet.isEmpty_eq_false_iff_ne_empty.1 nonempty⟩
  · rintro ⟨rfl, nonempty⟩
    obtain ⟨r, hr⟩ := SortedSet.ne_empty_iff.1 nonempty
    exact OrderedMap.get?_eq_some_iff.2 (mem_entries_of_mem_ends hr)

/-- The listed transitions tell the table. -/
theorem WellFormed.get?_eq_of_listing_eq (hA : A.WellFormed) (hB : B.WellFormed)
    (h : A.listing = B.listing) (origin : Origin) :
    A.transitions.get? origin = B.transitions.get? origin := by
  obtain ⟨q, l⟩ := origin
  -- the ends of a label are told by the transitions, and so is whether there is an entry for it
  have ends : A.ends q l = B.ends q l := by
    apply SortedSet.ext
    intro r
    exact (hA.mem_listing_iff (t := ⟨q, l, r⟩)).symm.trans (h ▸ hB.mem_listing_iff)
  apply Option.ext
  intro found
  rw [hA.get?_eq_some_iff, hB.get?_eq_some_iff, ends]

/-! ### The whole -/

/-- **The JSON text.**  All transitions in the table of a well-formed automaton are listed, each
once, in strict order: by source, then label with ε first, then end; so there are as many as the
table counts.  The JSON texts of two automata are equal exactly if the automata agree on the kind,
the states, the alphabet, the start state, the accepting states, and the listed transitions once ε
is read as its sign.  So if the first is deterministic, or its alphabet does not have that sign as a
symbol, equal texts have equal transition tables. -/
theorem json_tells_automata (hA : A.WellFormed) (hB : B.WellFormed) :
    ((∀ t, t ∈ A.listing ↔
        ∃ ends, (⟨t.source, t.label⟩, ends) ∈ A.transitions.entries ∧ t.target ∈ ends) ∧
      A.listing.Nodup ∧ A.listing.Pairwise Transition.Before ∧
      A.listing.length = A.transitionCount) ∧
    (A.json = B.json ↔ A.kind = B.kind ∧ A.states = B.states ∧ A.alphabet = B.alphabet ∧
      A.start = B.start ∧ A.accepting = B.accepting ∧
      A.listing.map Transition.shown = B.listing.map Transition.shown) ∧
    (A.json = B.json → A.kind = .deterministic ∨ epsilonSign ∉ A.alphabet →
      ∀ origin, A.transitions.get? origin = B.transitions.get? origin) := by
  refine ⟨⟨?_, A.pairwise_listing.imp Transition.Before.ne, A.pairwise_listing,
    hA.length_listing⟩, json_eq_iff, ?_⟩
  · intro t
    rw [hA.mem_listing_iff]
    constructor
    · intro step
      exact ⟨_, mem_entries_of_mem_ends step, step⟩
    · rintro ⟨ends, entry, step⟩
      rwa [ends_eq_of_mem_entries entry]
  · intro same plain
    obtain ⟨kind, -, alphabet, -, -, transitions⟩ := json_eq_iff.1 same
    apply hA.get?_eq_of_listing_eq hB
    refine listing_eq_of_map_shown_eq ?_ transitions
    rcases plain with deterministic | absent
    · refine Or.inl fun t ht => ?_
      rcases List.mem_append.1 ht with ht | ht
      · exact hA.label_ne_none deterministic ht
      · exact hB.label_ne_none (kind ▸ deterministic) ht
    · refine Or.inr fun t ht => ?_
      rcases List.mem_append.1 ht with ht | ht
      · exact label_ne_of_not_mem_alphabet absent ht
      · exact label_ne_of_not_mem_alphabet (alphabet ▸ absent) ht

/-- An automaton with the sign of ε in its alphabet, and one transition with the given label. -/
def murmur (l : Label) : Automaton :=
  compact
    { alphabet := .ofList ['"', epsilonSign]
      states := .ofList [-10, 7]
      transitions := .ofList [(⟨7, some '"'⟩, .singleton 7), (⟨-10, l⟩, .singleton 7)]
      start := -10
      accepting := .singleton 7 }

/-- A deterministic automaton over the sign of ε with the given table. -/
def blinker (table : TransitionTable) : Automaton :=
  compact
    { alphabet := .singleton epsilonSign
      states := .ofList [0, 1]
      transitions := table
      start := 0
      accepting := .singleton 1
      kind := .deterministic }

/-- The same transitions entered in two orders. -/
def backAndForth : TransitionTable :=
  .ofList [(⟨1, some epsilonSign⟩, .singleton 0), (⟨0, some epsilonSign⟩, .singleton 1)]

def forthAndBack : TransitionTable :=
  .ofList [(⟨0, some epsilonSign⟩, .singleton 1), (⟨1, some epsilonSign⟩, .singleton 0)]

/-- An ε transition and one on its sign have the same text; in a deterministic automaton this cannot
happen, and the order of the entries makes no difference. -/
theorem json_tells_murmurs_and_blinkers :
    (murmur none).WellFormed ∧ (murmur (some epsilonSign)).WellFormed ∧
      (murmur none).json = (murmur (some epsilonSign)).json ∧
      (murmur none).transitions ≠ (murmur (some epsilonSign)).transitions ∧
      (blinker backAndForth).WellFormed ∧ (blinker forthAndBack).WellFormed ∧
      ∀ origin, (blinker backAndForth).transitions.get? origin =
        (blinker forthAndBack).transitions.get? origin := by
  have silent : (murmur none).WellFormed := wellFormed_compact (by decide)
  have reading : (murmur (some epsilonSign)).WellFormed := wellFormed_compact (by decide)
  have backward : (blinker backAndForth).WellFormed := wellFormed_compact (by decide)
  have forward : (blinker forthAndBack).WellFormed := wellFormed_compact (by decide)
  refine ⟨silent, reading, ?_, by decide, backward, forward, ?_⟩
  · exact (json_tells_automata silent reading).2.1.2 (by decide)
  · obtain ⟨-, told, tables⟩ := json_tells_automata backward forward
    exact tables (told.2 (by decide)) (Or.inl rfl)

end Automaton

end PatternAutomata
