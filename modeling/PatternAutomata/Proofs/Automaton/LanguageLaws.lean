import PatternAutomata.Proofs.Automaton.Issue
import PatternAutomata.Proofs.Automaton.Relocation

/-!
# The languages of compositions

A union accepts what either operand accepts, a concatenation accepts the texts of the left operand
followed by texts of the right one, and an iteration accepts any number of texts of its operand one
after the other.  This holds of operands of either kind, which may share states or be one automaton:
a right operand that shares states with the left one is renamed first, and a composition with a
deterministic left operand is determinized, and neither changes what is accepted.

* `IsConformed`, `exists_runFrom_conform` — what is made of a composition, determinized or not,
  accepts the same texts;
* `toggle`, `spool` — two automata that share a state, as operands;
* `size_unionFrom` — the states of a union;
* `union_accepts_either`, `concatenation_accepts_products`, `iteration_accepts_repetitions` — the
  languages.
-/

namespace PatternAutomata

namespace Automaton

variable {A B C : Automaton} {start counter : State}

/-! ### What is made of a composition -/

/-- `D` is the composition `C`, put together for the left operand `A`: an automaton of the kind of
`A` that accepts what `C` accepts, and has the states of `C` unless it was determinized. -/
structure IsConformed (A C D : Automaton) : Prop where
  wellFormed : D.WellFormed
  kind : D.kind = A.kind
  alphabet : D.alphabet = C.alphabet
  accepts_iff : ∀ w, D.accepts w = true ↔ C.Accepts w
  states : A.kind = .nondeterministic → D.states = C.states

theorem isConformed_compact (kind : A.kind = .nondeterministic) (fits : C.Fits)
    (own : C.kind = .nondeterministic) : IsConformed A C C.compact where
  wellFormed := fits.wellFormed_compact
  kind := own.trans kind.symm
  alphabet := rfl
  accepts_iff := by
    intro w
    rw [Automaton.accepts_iff fits.wellFormed_compact, accepts_compact]
  states := fun _ => rfl

theorem isConformed_subsetAutomaton (kind : A.kind = .deterministic) (fits : C.Fits)
    (base : State) : IsConformed A C (C.compact.subsetAutomaton base) := by
  have hC := fits.wellFormed_compact
  have hD : (C.compact.subsetAutomaton base).IsDfa := isDfa_subsetAutomaton hC
  refine ⟨hD.wellFormed, hD.kind.trans kind.symm, rfl, ?_, ?_⟩
  · intro w
    rw [Automaton.accepts_iff hD.wellFormed, accepts_subsetAutomaton hC, accepts_compact]
  · intro other
    rw [kind] at other
    cases other

/-- A composition whose parts fit together is put together. -/
theorem exists_runFrom_conform (A : Automaton) (fits : C.Fits) (own : C.kind = .nondeterministic)
    (counter : State) :
    ∃ D next, (A.conform C).runFrom counter = (.ok D, next) ∧ IsConformed A C D := by
  cases kind : A.kind with
  | nondeterministic =>
    exact ⟨_, _, runFrom_conform kind fits counter, isConformed_compact kind fits own⟩
  | deterministic =>
    have run := (runFrom_conform_of_deterministic kind fits counter).trans
      (runFrom_determinize fits.wellFormed_compact counter)
    exact ⟨_, _, run, isConformed_subsetAutomaton kind fits counter⟩

/-! ### Two operands for the examples -/

/-- A deterministic automaton for an odd number of `b`, which comes back to its start. -/
def toggle : Automaton :=
  compact
    { alphabet := .singleton 'b'
      states := .ofList [0, 1]
      transitions := .ofList [(⟨0, some 'b'⟩, .singleton 1), (⟨1, some 'b'⟩, .singleton 0)]
      start := 0
      accepting := .singleton 1
      kind := .deterministic }

/-- An automaton for texts of `a` and `b` that end in `a`.  It reads any number of `b` in its start
state, comes back to it by ε from its accepting state, and has a state that nothing leads to. -/
def spool : Automaton :=
  compact
    { alphabet := .ofList ['a', 'b']
      states := .ofList [1, 2, 5]
      transitions := .ofList
        [(⟨1, some 'b'⟩, .singleton 1), (⟨1, some 'a'⟩, .singleton 2), (⟨2, none⟩, .singleton 1)]
      start := 1
      accepting := .singleton 2 }

theorem issued_toggle : toggle.Issued 6 where
  wellFormed := wellFormed_compact (by decide)
  below := by
    intro q hq
    rcases List.mem_pair.1 (SortedSet.mem_ofList.1 hq) with rfl | rfl <;> decide
  named := named_of_names_eq_empty rfl

theorem issued_spool : spool.Issued 6 where
  wellFormed := wellFormed_compact (by decide)
  below := by
    have bound : ∀ q ∈ [(1 : Int), 2, 5], q < 6 := by decide
    exact fun q hq => bound q (SortedSet.mem_ofList.1 hq)
  named := named_of_names_eq_empty rfl

/-! ### Union -/

theorem size_unionFrom (apart : A.states.Disjoint B.states) (newA : start ∉ A.states)
    (newB : start ∉ B.states) :
    (unionFrom start A B).states.size = A.states.size + B.states.size + 1 := by
  have new : start ∉ A.states.union B.states := by
    intro mem
    rcases SortedSet.mem_union.1 mem with mem | mem
    · exact newA mem
    · exact newB mem
  show ((A.states.union B.states).insert start).size = _
  rw [SortedSet.size_insert new, SortedSet.size_union apart]

/-- **Union.**  Automata that have been handed out, of either kind, which may share states or be one
automaton, have a union.  It is of the kind of the left one, has the symbols of both, and accepts
exactly the texts that one of them accepts.  If the left one is nondeterministic, it has the states
of both, those that they share twice, and one more. -/
theorem union_accepts_either (hA : A.Issued counter) (hB : B.Issued counter) :
    ∃ D next, (A.union B).runFrom counter = (.ok D, next) ∧
      D.WellFormed ∧ D.kind = A.kind ∧
      (∀ c, c ∈ D.alphabet ↔ c ∈ A.alphabet ∨ c ∈ B.alphabet) ∧
      (∀ w, D.accepts w = true ↔ A.accepts w = true ∨ B.accepts w = true) ∧
      (A.kind = .nondeterministic → D.stateCount = A.stateCount + B.stateCount + 1 ∧
        (B = A → D.stateCount = 2 * A.stateCount + 1)) := by
  obtain ⟨C, mid, made, le, hC, apart, _⟩ := exists_runFrom_apartFrom hA hB
  obtain ⟨f, image⟩ := exists_isIsomorphism_of_apartFrom hB made
  have newA : mid ∉ A.states := not_mem_of_forall_lt (hA.mono le).below
  have newC : mid ∉ C.states := not_mem_of_forall_lt hC.below
  have fits : (unionFrom mid A C).Fits :=
    fits_unionFrom hA.wellFormed hC.wellFormed apart newA newC
  obtain ⟨D, next, run, conformed⟩ := exists_runFrom_conform A fits rfl (mid + 1)
  refine ⟨D, next, (runFrom_union_of_apartFrom made).trans run, conformed.wellFormed,
    conformed.kind, ?_, ?_, ?_⟩
  · intro c
    rw [conformed.alphabet, ← image.alphabet]
    exact SortedSet.mem_union
  · intro w
    rw [conformed.accepts_iff, accepts_unionFrom hA.wellFormed hC.wellFormed apart newA newC,
      image.accepts_iff_accepts, accepts_iff hA.wellFormed]
  · intro kind
    have size : D.stateCount = A.stateCount + B.stateCount + 1 := by
      show D.states.size = A.states.size + B.states.size + 1
      rw [conformed.states kind, size_unionFrom apart newA newC, image.size_eq]
    refine ⟨size, ?_⟩
    intro same
    rw [size, same, Nat.two_mul]

/-- The union of `spool` with itself. -/
theorem union_of_spool_accepts_either :
    spool.Issued 6 ∧ ∃ D next, (spool.union spool).runFrom 6 = (.ok D, next) ∧
      D.WellFormed ∧ D.kind = .nondeterministic ∧ D.accepts "bba".toList = true ∧
      D.accepts "ab".toList = false ∧ D.stateCount = 7 := by
  refine ⟨issued_spool, ?_⟩
  obtain ⟨D, next, run, wellFormed, kind, _, accepts, size⟩ :=
    union_accepts_either issued_spool issued_spool
  refine ⟨D, next, run, wellFormed, kind, ?_, ?_, (size rfl).2 rfl⟩
  · exact (accepts _).2 (Or.inl (by decide))
  · rw [← Bool.not_eq_true, accepts]
    decide

/-! ### Concatenation -/

/-- **Concatenation.**  Automata that have been handed out, of either kind, which may share states or
be one automaton, have a concatenation.  It is of the kind of the left one, has the symbols of both,
and accepts exactly the texts of the left one followed by texts of the right one. -/
theorem concatenation_accepts_products (hA : A.Issued counter) (hB : B.Issued counter) :
    ∃ D next, (A.concatenate B).runFrom counter = (.ok D, next) ∧
      D.WellFormed ∧ D.kind = A.kind ∧
      (∀ c, c ∈ D.alphabet ↔ c ∈ A.alphabet ∨ c ∈ B.alphabet) ∧
      ∀ w, D.accepts w = true ↔
        ∃ u v, w = u ++ v ∧ A.accepts u = true ∧ B.accepts v = true := by
  obtain ⟨C, mid, made, _, hC, apart, _⟩ := exists_runFrom_apartFrom hA hB
  obtain ⟨f, image⟩ := exists_isIsomorphism_of_apartFrom hB made
  have fits : (followedBy A C).Fits := fits_followedBy hA.wellFormed hC.wellFormed apart
  obtain ⟨D, next, run, conformed⟩ := exists_runFrom_conform A fits rfl mid
  refine ⟨D, next, (runFrom_concatenate_of_apartFrom made).trans run, conformed.wellFormed,
    conformed.kind, ?_, ?_⟩
  · intro c
    rw [conformed.alphabet, ← image.alphabet]
    exact SortedSet.mem_union
  · intro w
    rw [conformed.accepts_iff, accepts_followedBy hA.wellFormed hC.wellFormed apart]
    simp only [image.accepts_iff_accepts, accepts_iff hA.wellFormed]

/-- The concatenation of `toggle` and `spool`, which share a state and differ in kind and
alphabet. -/
theorem concatenation_of_toggle_and_spool_accepts_products :
    toggle.Issued 6 ∧ spool.Issued 6 ∧
      ∃ D next, (toggle.concatenate spool).runFrom 6 = (.ok D, next) ∧
        D.WellFormed ∧ D.kind = .deterministic ∧ 'a' ∈ D.alphabet ∧
        D.accepts "bbba".toList = true ∧ D.accepts [] = false := by
  refine ⟨issued_toggle, issued_spool, ?_⟩
  obtain ⟨D, next, run, wellFormed, kind, alphabet, accepts⟩ :=
    concatenation_accepts_products issued_toggle issued_spool
  refine ⟨D, next, run, wellFormed, kind, (alphabet 'a').2 (Or.inr (by decide)), ?_, ?_⟩
  · exact (accepts _).2 ⟨"b".toList, "bba".toList, rfl, by decide, by decide⟩
  · rw [← Bool.not_eq_true, accepts]
    rintro ⟨u, v, nothing, odd, _⟩
    obtain ⟨rfl, rfl⟩ := List.append_eq_nil_iff.1 nothing.symm
    exact absurd odd (by decide)

/-! ### Iteration -/

/-- **Iteration.**  An automaton of either kind with states below the counter has an iteration.  It
is of the same kind, has the same symbols, and accepts exactly the texts that are put together from
any number of texts that the automaton accepts; if it accepts none, this is the empty text alone. -/
theorem iteration_accepts_repetitions (hA : A.WellFormed)
    (below : ∀ q, q ∈ A.states → q < counter) :
    ∃ D next, A.star.runFrom counter = (.ok D, next) ∧
      D.WellFormed ∧ D.kind = A.kind ∧ D.alphabet = A.alphabet ∧
      (∀ w, D.accepts w = true ↔
        ∃ parts : List Text, w = parts.flatten ∧ ∀ u ∈ parts, A.accepts u = true) ∧
      ((∀ u, A.accepts u = false) → ∀ w, D.accepts w = true ↔ w = []) := by
  have new : counter ∉ A.states := not_mem_of_forall_lt below
  have fits : (iteratedFrom counter A).Fits := fits_iteratedFrom hA new
  obtain ⟨D, next, run, conformed⟩ := exists_runFrom_conform A fits rfl (counter + 1)
  have accepts : ∀ w, D.accepts w = true ↔
      ∃ parts : List Text, w = parts.flatten ∧ ∀ u ∈ parts, A.accepts u = true := by
    intro w
    rw [conformed.accepts_iff, accepts_iteratedFrom hA new]
    simp only [accepts_iff hA]
  refine ⟨D, next, (A.runFrom_star_eq counter).trans run, conformed.wellFormed, conformed.kind,
    conformed.alphabet, accepts, ?_⟩
  intro nothing w
  rw [accepts]
  constructor
  · rintro ⟨parts, rfl, all⟩
    cases parts with
    | nil => rfl
    | cons u parts =>
      have accepted := all u List.mem_cons_self
      rw [nothing u] at accepted
      cases accepted
  · rintro rfl
    exact ⟨[], rfl, nofun⟩

/-- The iteration of `spool`: a text that only comes back to its start state is not accepted. -/
theorem iteration_of_spool_accepts_repetitions :
    spool.WellFormed ∧ (∀ q, q ∈ spool.states → q < 6) ∧
      ∃ D next, spool.star.runFrom 6 = (.ok D, next) ∧ D.WellFormed ∧
        D.accepts "babba".toList = true ∧ D.accepts [] = true ∧ D.accepts ['b'] = false := by
  refine ⟨issued_spool.wellFormed, issued_spool.below, ?_⟩
  obtain ⟨D, next, run, wellFormed, _, _, accepts, _⟩ :=
    iteration_accepts_repetitions issued_spool.wellFormed issued_spool.below
  refine ⟨D, next, run, wellFormed, ?_, ?_, ?_⟩
  · exact (accepts _).2 ⟨["ba".toList, "bba".toList], rfl, by decide⟩
  · exact (accepts _).2 ⟨[], rfl, nofun⟩
  · rw [← Bool.not_eq_true, accepts]
    rintro ⟨parts, text, all⟩
    have symbol : 'b' ∈ parts.flatten := by
      rw [← text]
      exact List.mem_cons_self
    -- the part that holds the symbol is the whole text
    obtain ⟨u, hu, mem⟩ := List.mem_flatten.1 symbol
    have short : u.length ≤ ['b'].length := by
      rw [text]
      exact (List.sublist_flatten_of_mem hu).length_le
    have whole : u = ['b'] := ((List.singleton_sublist.2 mem).eq_of_length_le short).symm
    have accepted := all u hu
    rw [whole] at accepted
    exact absurd accepted (by decide)

end Automaton

end PatternAutomata
