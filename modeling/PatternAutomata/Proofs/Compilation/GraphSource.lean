import PatternAutomata.Proofs.Automaton.GraphRendering
import PatternAutomata.Proofs.Automaton.Listing
import PatternAutomata.Proofs.Compilation.DeadEnds
import PatternAutomata.Proofs.Compilation.Relocation
import PatternAutomata.Proofs.Pattern.Conservation

/-!
# The graphs of compiled patterns

The automaton of a pattern has a transition for every literal of the pattern, and its states are
named by their numbers or after sets of states.  So its graph is read back exactly if there is no
backslash in the pattern: the label of a backslash runs over its quotation mark into the rest of the
text.

* `Automaton.Path.exists_mem_listing` — a symbol on a path is the label of a transition;
* `Automaton.namedMildly_of_namesAlike` — names of sets of states are read back;
* `exists_runFrom_compile_drawn` — the labels of a compiled automaton, and the names of its states;
* `compiled_graphs_are_read_back` — its graph.
-/

namespace PatternAutomata

open Automaton DotText

variable {p w : Text} {c : Symbol}

namespace Automaton

variable {A : Automaton} {q r : State}

/-- A symbol on a path is the label of a transition. -/
theorem Path.exists_mem_listing (hA : A.WellFormed) (h : A.Path q w r) (hc : c ∈ w) :
    ∃ t ∈ A.listing, t.label = some c := by
  induction h with
  | refl _ => exact absurd hc List.not_mem_nil
  | silent _ _ ih => exact ih hc
  | @read q r _ d _ step _ ih =>
    rcases List.mem_cons.1 hc with rfl | hc
    · exact ⟨⟨q, some c, r⟩, hA.mem_listing_iff.2 step, rfl⟩
    · exact ih hc

/-- States that are not named, or named after sets of states, are named mildly. -/
theorem namedMildly_of_namesAlike {f : State → State} {g : State → Option Text}
    (h : ∀ q, NamesAlike f (A.names.get? q) (g q)) : A.NamedMildly := by
  have sets : ∀ S : SortedSet State, Mild (subsetName S) := by
    intro S
    unfold subsetName
    split
    · decide
    · have numbers : ∀ u ∈ S.toList.map decimal, Mild u := by
        intro u hu
        obtain ⟨n, _, rfl⟩ := List.mem_map.1 hu
        exact mild_decimal n
      have opening : Mild ['\x7b'] := by decide
      have closing : Mild ['\x7d'] := by decide
      have comma : Mild [','] := by decide
      exact mild_append (mild_append opening (mild_joined comma numbers)) closing
  intro q _
  have alike := h q
  unfold name
  generalize A.names.get? q = own at alike
  generalize g q = other at alike
  cases alike with
  | unnamed => exact mild_decimal q
  | set S => exact sets S

end Automaton

/-- The labels of a compiled automaton are ε and the literals of the pattern. -/
theorem exists_runFrom_compile_drawn (h : InGrammar p) (flags : Flags) (counter : State) :
    ∃ A next, (compile p flags).runFrom counter = (.ok A, next) ∧ A.NamedMildly ∧
      ∀ c, c ∉ "|*()".toList → ((∃ t ∈ A.listing, t.label = some c) ↔ c ∈ p) := by
  obtain ⟨tokens, found, written, back, _⟩ := exists_ofPostfix_of_inGrammar h
  have fragment := fragment_automatonFound back counter
  have run : (compile p flags).runFrom counter = _ :=
    Stages.runFrom_compile_eq written (runFrom_build back counter)
  obtain ⟨A, next, stages, hA, alphabet, accepts⟩ :=
    Stages.exists_runFrom_afterConstruction fragment.wellFormed flags
      (counter + sizeFound found)
  obtain ⟨B, _, _, again, _, alike⟩ := exists_runFrom_afterConstruction_relocated
    (isIsomorphism_automatonFound found counter 0) (names_automatonFound found counter)
    (names_automatonFound found (counter + 0)) flags (counter + sizeFound found)
  obtain ⟨same, _⟩ := Prod.mk.inj (stages.symm.trans again)
  cases same
  refine ⟨A, next, run.trans stages, namedMildly_of_namesAlike alike.names, ?_⟩
  intro c plain
  have literal : Token.literal c ∈ tokens ↔ c ∈ p := by
    rw [← Token.mem_literals_iff, Postfix.literals_of_ofText written, List.mem_filter,
      decide_eq_true_eq]
    exact and_iff_left plain
  rw [← literal, ← fragment.mem_alphabet_iff]
  constructor
  · rintro ⟨t, ht, label⟩
    have covered := mem_labels_iff.1 (mem_listing.1 ht).2.1 c label
    rwa [alphabet] at covered
  · intro hc
    obtain ⟨w, accepted, mem⟩ := exists_accepts_mem back counter hc
    obtain ⟨r, _, path⟩ := (accepts w).2 accepted
    exact path.exists_mem_listing hA mem

/-- **Reading graphs back.**  The graph of the automaton of a pattern is read back, by the lexical
rules of DOT, exactly if the pattern has no backslash in it.  Each statement of a transition is read
as an edge between its states whose label is its symbol, or ε, unless this symbol is the backslash,
and then it is not; there are such transitions exactly if the pattern has a backslash. -/
theorem compiled_graphs_are_read_back (h : InGrammar p) (flags : Flags) (counter : State) :
    ∃ A next, (compile p flags).runFrom counter = (.ok A, next) ∧
      (∀ t ∈ A.listing, ReadsStatement (transitionStatement t)
          ⟨.edge (decimal t.source) (decimal t.target),
            [("label".toList, [t.label.getD 'ε']),
              if t.label.isNone then ("style".toList, "dotted".toList)
              else ("color".toList, "black".toList)]⟩ ↔ t.label ≠ some backslash) ∧
      ((∃ t ∈ A.listing, t.label = some backslash) ↔ backslash ∈ p) ∧
      (Reads A.graph A.drawing ↔ backslash ∉ p) := by
  obtain ⟨A, next, run, named, labels⟩ := exists_runFrom_compile_drawn h flags counter
  have slashes := labels backslash (by decide)
  refine ⟨A, next, run, fun t _ => readsStatement_transitionStatement_iff t, slashes, ?_⟩
  rw [reads_graph_iff named, ← slashes]
  constructor
  · rintro none ⟨t, ht, label⟩
    exact none t ht label
  · intro none t ht label
    exact none ⟨t, ht, label⟩

/-- A quotation mark, a line feed and an angle bracket are read back. -/
theorem compiled_graph_of_marks_is_read_back :
    InGrammar ['"', '|', '\n', '<'] ∧
      ∃ A next, (compile ['"', '|', '\n', '<'] { minimize := true }).runFrom (-3) = (.ok A, next) ∧
        Reads A.graph A.drawing ∧
        ∀ t ∈ A.listing, ReadsStatement (transitionStatement t)
          ⟨.edge (decimal t.source) (decimal t.target),
            [("label".toList, [t.label.getD 'ε']),
              if t.label.isNone then ("style".toList, "dotted".toList)
              else ("color".toList, "black".toList)]⟩ := by
  have literal : ∀ c : Symbol, Operator.ofSymbol? c = none → Spells .factor (.literal c) [c] :=
    fun c plain => .ofAtom (.literal plain)
  have left : Spells .expression (.literal '"') ['"'] := .ofTerm (.ofFactor (literal _ rfl))
  have right : Spells .term (.concat (.literal '\n') (.literal '<')) ['\n', '<'] :=
    .concat (.ofFactor (literal _ rfl)) (literal _ rfl)
  have pattern : InGrammar ['"', '|', '\n', '<'] := Or.inr ⟨_, .union left right⟩
  obtain ⟨A, next, run, transitions, slashes, whole⟩ :=
    compiled_graphs_are_read_back pattern { minimize := true } (-3)
  have none : backslash ∉ ['"', '|', '\n', '<'] := by decide
  refine ⟨pattern, A, next, run, whole.2 none, fun t ht => (transitions t ht).2 ?_⟩
  intro label
  exact none (slashes.1 ⟨t, ht, label⟩)

/-- Nothing is read from the graph of a backslash, and nothing from the statement of its
transition: the label does not end. -/
theorem compiled_graph_of_backslash_is_not_read :
    InGrammar [backslash] ∧ ∃ A next, (compile [backslash] {}).runFrom 0 = (.ok A, next) ∧
      lexemes A.graph = none ∧
      ∃ t ∈ A.listing, t.label = some backslash ∧ lexemes (transitionStatement t) = none := by
  have pattern : InGrammar [backslash] :=
    Or.inr ⟨_, .ofTerm (.ofFactor (.ofAtom (.literal (c := backslash) rfl)))⟩
  exact ⟨pattern, _, _, rfl, by decide +kernel, ⟨0, some backslash, 1⟩, by decide +kernel, rfl,
    by decide +kernel⟩

end PatternAutomata
