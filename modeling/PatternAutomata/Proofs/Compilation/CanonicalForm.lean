import PatternAutomata.Proofs.Automaton.Canonicity
import PatternAutomata.Proofs.Compilation.Meaning

/-!
# Minimal automata are a canonical form

Patterns that denote the same texts are compiled into minimal automata that differ by a constant in
the numbers of their states.  The alphabet is the same as well: it has exactly the symbols that
occur in the denoted texts.

* `exists_compile_minimize_shift` — the minimal automata of two such patterns;
* `exists_minimize_isIsomorphism` — the minimal automata of any two automata that accept the same
  texts.
-/

namespace PatternAutomata

open Automaton

variable {p q : Text} {A B : Automaton}

/-- The minimal automata of patterns that denote the same texts. -/
theorem exists_compile_minimize_shift (hp : InGrammar p) (hq : InGrammar q)
    (same : ∀ w, Denotes p w ↔ Denotes q w) (i j : State) :
    ∃ M N m n k, (compile p { minimize := true }).runFrom i = (.ok M, m) ∧
      (compile q { minimize := true }).runFrom j = (.ok N, n) ∧ IsIsomorphism (· + k) M N := by
  obtain ⟨tokensP, A, a, writtenP, builtP, hA, acceptsA, alphabetA⟩ :=
    exists_runFrom_construction hp i
  obtain ⟨tokensQ, B, b, writtenQ, builtQ, hB, acceptsB, alphabetB⟩ :=
    exists_runFrom_construction hq j
  have alphabet : B.alphabet = A.alphabet := by
    apply SortedSet.ext
    intro c
    rw [alphabetA, alphabetB]
    simp only [same]
  have accepts : ∀ w, (A.subsetAutomaton a).Accepts w ↔ (B.subsetAutomaton b).Accepts w := by
    intro w
    rw [accepts_subsetAutomaton hA, accepts_subsetAutomaton hB, acceptsA, acceptsB, same]
  obtain ⟨M, N, m, n, k, minimizedA, minimizedB, shift⟩ :=
    exists_shift_minimize (isDfa_subsetAutomaton hA) (isDfa_subsetAutomaton hB)
      (inBreadthOrder_subsetAutomaton hA) (inBreadthOrder_subsetAutomaton hB) alphabet accepts
      (a + A.subsets.length) (b + B.subsets.length)
  refine ⟨M, N, m, n, k, ?_, ?_, shift⟩
  · rw [Stages.runFrom_compile_eq writtenP builtP]
    exact Stages.runFrom_afterConstruction_minimize hA rfl minimizedA
  · rw [Stages.runFrom_compile_eq writtenQ builtQ]
    exact Stages.runFrom_afterConstruction_minimize hB rfl minimizedB

/-- The minimal automata of automata over one alphabet that accept the same texts: they are
isomorphic, and differ by a constant if both automata are nondeterministic. -/
theorem exists_minimize_isIsomorphism (hA : A.WellFormed) (hB : B.WellFormed)
    (alphabet : B.alphabet = A.alphabet) (same : ∀ w, A.Accepts w ↔ B.Accepts w) (i j : State) :
    ∃ M N m n, A.minimize.runFrom i = (.ok M, m) ∧ B.minimize.runFrom j = (.ok N, n) ∧
      (∃ f, IsIsomorphism f M N) ∧
      (A.kind = .nondeterministic → B.kind = .nondeterministic →
        ∃ k, IsIsomorphism (· + k) M N) := by
  obtain ⟨M, m, runA, reducedM, alphabetM, acceptsM⟩ := exists_runFrom_minimize hA i
  obtain ⟨N, n, runB, reducedN, alphabetN, acceptsN⟩ := exists_runFrom_minimize hB j
  refine ⟨M, N, m, n, runA, runB, ?_, ?_⟩
  · apply reducedM.exists_isIsomorphism reducedN
    · rw [alphabetN, alphabet, alphabetM]
    · intro w
      rw [acceptsM, acceptsN, same]
  · intro kindA kindB
    obtain ⟨M', N', m', n', k, runA', runB', shift⟩ :=
      exists_shift_minimize_of_nondeterministic hA hB kindA kindB alphabet same i j
    rw [runA] at runA'
    rw [runB] at runB'
    cases runA'
    cases runB'
    exact ⟨k, shift⟩

/-- **Canonical form.**  Patterns that denote the same texts have minimal automata with the same
alphabet that are equal after one constant is added to every state.  Any two well-formed automata
over one alphabet that accept the same texts have isomorphic minimal automata, and these differ by a
constant if both automata are nondeterministic. -/
theorem minimal_automata_are_canonical :
    (∀ p q : Text, InGrammar p → InGrammar q → (∀ w, Denotes p w ↔ Denotes q w) →
      ∀ i j : State, ∃ M N m n k,
        (compile p { minimize := true }).runFrom i = (.ok M, m) ∧
        (compile q { minimize := true }).runFrom j = (.ok N, n) ∧
        N.alphabet = M.alphabet ∧ IsIsomorphism (· + k) M N) ∧
    ∀ A B : Automaton, A.WellFormed → B.WellFormed → B.alphabet = A.alphabet →
      (∀ w, A.accepts w = B.accepts w) →
      ∀ i j : State, ∃ M N m n, A.minimize.runFrom i = (.ok M, m) ∧
        B.minimize.runFrom j = (.ok N, n) ∧ (∃ f, IsIsomorphism f M N) ∧
        (A.kind = .nondeterministic → B.kind = .nondeterministic →
          ∃ k, IsIsomorphism (· + k) M N) := by
  constructor
  · intro p q hp hq same i j
    obtain ⟨M, N, m, n, k, runP, runQ, shift⟩ := exists_compile_minimize_shift hp hq same i j
    exact ⟨M, N, m, n, k, runP, runQ, shift.alphabet, shift⟩
  · intro A B hA hB alphabet same i j
    apply exists_minimize_isIsomorphism hA hB alphabet
    intro w
    rw [← accepts_iff hA, ← accepts_iff hB, same]

theorem minimal_automata_of_one_symbol_are_canonical :
    (∃ M N m n k, (compile "a|a".toList { minimize := true }).runFrom 4 = (.ok M, m) ∧
      (compile "a".toList { minimize := true }).runFrom (-9) = (.ok N, n) ∧
      N.alphabet = M.alphabet ∧ IsIsomorphism (· + k) M N) ∧
    (symbolAt 'a' 2).compact.WellFormed ∧ (symbolAt 'a' (-3)).compact.WellFormed ∧
    ∃ M N m n, (symbolAt 'a' 2).compact.minimize.runFrom 4 = (.ok M, m) ∧
      (symbolAt 'a' (-3)).compact.minimize.runFrom 0 = (.ok N, n) ∧
      ∃ k, IsIsomorphism (· + k) M N := by
  obtain ⟨patterns, automata⟩ := minimal_automata_are_canonical
  have a : Spells .term (.literal 'a') ['a'] := .ofFactor (.ofAtom (.literal rfl))
  have once : Spells .expression (.literal 'a') "a".toList := .ofTerm a
  have twice : Spells .expression (.union (.literal 'a') (.literal 'a')) "a|a".toList :=
    .union once a
  have same : ∀ w, Denotes "a|a".toList w ↔ Denotes "a".toList w := by
    intro w
    rw [Denotes.iff_matches twice, Denotes.iff_matches once, Regex.matches_union_iff, or_self]
  have left := (fits_symbolAt 'a' 2).wellFormed_compact
  have right := (fits_symbolAt 'a' (-3)).wellFormed_compact
  have accepts : ∀ w,
      (symbolAt 'a' 2).compact.accepts w = (symbolAt 'a' (-3)).compact.accepts w := by
    intro w
    rw [Bool.eq_iff_iff, accepts_iff left, accepts_iff right, accepts_compact, accepts_compact,
      accepts_symbolAt, accepts_symbolAt]
  obtain ⟨M, N, m, n, runA, runB, _, shift⟩ := automata _ _ left right rfl accepts 4 0
  exact ⟨patterns _ _ (Or.inr ⟨_, twice⟩) (Or.inr ⟨_, once⟩) same 4 (-9), left, right,
    M, N, m, n, runA, runB, shift rfl rfl⟩

end PatternAutomata
