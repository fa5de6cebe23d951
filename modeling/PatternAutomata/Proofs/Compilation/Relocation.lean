import PatternAutomata.Proofs.Automaton.Exactness
import PatternAutomata.Proofs.Automaton.Relocation
import PatternAutomata.Proofs.Automaton.Renaming
import PatternAutomata.Proofs.Compilation.Meaning
import PatternAutomata.Proofs.Compilation.Thompson

/-!
# The identity of states affects only naming

Determinizing, minimizing and compiling give the same result, up to a constant and the states that
names mention, whatever the states of the given automaton are and wherever the counter stands.

* `isIsomorphism_unionFrom`, `isIsomorphism_followedBy`, `isIsomorphism_iteratedFrom` — compositions
  of renamed automata are renamed compositions;
* `Regex.isIsomorphism_automaton` — the automaton of an expression, on states that differ by a
  constant;
* `exists_runFrom_afterConstruction_relocated` — the stages after the construction;
* `compile_relocates` — compiling from two counters;
* `identities_affect_only_naming` — determinizing, minimizing and compiling.
-/

namespace PatternAutomata

namespace Automaton

variable {A A' B B' M N : Automaton} {f : State → State} {p q r start : State} {l : Label}

/-! ### Compositions of renamed automata -/

theorem IsIsomorphism.mem_states_iff (h : IsIsomorphism f M N) :
    p ∈ N.states ↔ ∃ q, q ∈ M.states ∧ f q = p := by
  rw [h.states, SortedSet.mem_map]

/-- Two automata that fit and correspond under a renaming, before the entries that lead nowhere are
dropped. -/
theorem isIsomorphism_compact (fitsM : M.Fits) (fitsN : N.Fits)
    (injective : ∀ q r, f q = f r → q = r) (alphabet : N.alphabet = M.alphabet)
    (kind : N.kind = M.kind) (start : N.start = f M.start)
    (states : N.states = M.states.map f) (accepting : N.accepting = M.accepting.map f)
    (ends : ∀ q l p, p ∈ N.ends (f q) l ↔ ∃ r, r ∈ M.ends q l ∧ f r = p) :
    IsIsomorphism f M.compact N.compact where
  source_wellFormed := fitsM.wellFormed_compact
  target_wellFormed := fitsN.wellFormed_compact
  injective := fun q r _ _ => injective q r
  alphabet := alphabet
  kind := kind
  states := states
  start := start
  accepting := accepting
  ends := by
    intro q _ l
    apply SortedSet.ext
    intro p
    rw [ends_compact, ends_compact, SortedSet.mem_map]
    exact ends q l p

section Compositions

variable (injective : ∀ q r, f q = f r → q = r)

include injective

/-- Under a renaming that tells all states apart, the transitions correspond everywhere. -/
theorem IsIsomorphism.mem_ends_iff (h : IsIsomorphism f M N) :
    p ∈ N.ends (f q) l ↔ ∃ r, r ∈ M.ends q l ∧ f r = p := by
  have own : ∀ q, q ∈ M.states → (p ∈ N.ends (f q) l ↔ ∃ r, r ∈ M.ends q l ∧ f r = p) := by
    intro q hq
    rw [h.ends q hq l, SortedSet.mem_map]
  constructor
  · intro hp
    obtain ⟨r, hr, same⟩ := h.mem_states_iff.1 (h.target_wellFormed.source_mem_states hp)
    rw [injective r q same] at hr
    exact (own q hr).1 hp
  · intro image
    obtain ⟨r, hr, same⟩ := image
    exact (own q (h.source_wellFormed.source_mem_states hr)).2 ⟨r, hr, same⟩

theorem IsIsomorphism.mem_accepting_image_iff (h : IsIsomorphism f M N) :
    f q ∈ N.accepting ↔ q ∈ M.accepting := by
  constructor
  · intro hq
    obtain ⟨r, hr, same⟩ := h.mem_states_iff.1 (h.target_wellFormed.accepting_subset _ hq)
    rw [injective r q same] at hr
    exact (h.mem_accepting_iff hr).1 hq
  · intro hq
    exact (h.mem_accepting_iff (h.source_wellFormed.accepting_subset q hq)).2 hq

/-- The images of automata that share no states share none. -/
theorem disjoint_of_isIsomorphism (hA : IsIsomorphism f A A') (hB : IsIsomorphism f B B')
    (apart : A.states.Disjoint B.states) : A'.states.Disjoint B'.states := by
  intro p hpA hpB
  obtain ⟨q, hq, rfl⟩ := hA.mem_states_iff.1 hpA
  obtain ⟨r, hr, same⟩ := hB.mem_states_iff.1 hpB
  rw [injective r q same] at hr
  exact apart q hq hr

theorem IsIsomorphism.not_mem_states (h : IsIsomorphism f M N) (new : q ∉ M.states) :
    f q ∉ N.states := by
  intro mem
  obtain ⟨r, hr, same⟩ := h.mem_states_iff.1 mem
  rw [injective r q same] at hr
  exact new hr

theorem isIsomorphism_unionFrom (hA : IsIsomorphism f A A') (hB : IsIsomorphism f B B')
    (apart : A.states.Disjoint B.states) (newA : start ∉ A.states) (newB : start ∉ B.states) :
    IsIsomorphism f (unionFrom start A B).compact (unionFrom (f start) A' B').compact := by
  have apart' := disjoint_of_isIsomorphism injective hA hB apart
  have newA' := hA.not_mem_states injective newA
  have newB' := hB.not_mem_states injective newB
  apply isIsomorphism_compact
    (fits_unionFrom hA.source_wellFormed hB.source_wellFormed apart newA newB)
    (fits_unionFrom hA.target_wellFormed hB.target_wellFormed apart' newA' newB') injective
  · show A'.alphabet.union B'.alphabet = A.alphabet.union B.alphabet
    rw [hA.alphabet, hB.alphabet]
  · rfl
  · rfl
  · show (A'.states.union B'.states).insert (f start)
      = ((A.states.union B.states).insert start).map f
    rw [SortedSet.map_insert, SortedSet.map_union, hA.states, hB.states]
  · show A'.accepting.union B'.accepting = (A.accepting.union B.accepting).map f
    rw [SortedSet.map_union, hA.accepting, hB.accepting]
  · intro q l p
    rw [mem_ends_unionFrom hA.target_wellFormed hB.target_wellFormed apart' newA' newB',
      hA.mem_ends_iff injective, hB.mem_ends_iff injective, hA.start, hB.start]
    simp only [mem_ends_unionFrom hA.source_wellFormed hB.source_wellFormed apart newA newB]
    constructor
    · intro hp
      rcases hp with ⟨hq, hl, rfl | rfl⟩ | ⟨r, hr, rfl⟩ | ⟨r, hr, rfl⟩
      · exact ⟨A.start, Or.inl ⟨injective _ _ hq, hl, Or.inl rfl⟩, rfl⟩
      · exact ⟨B.start, Or.inl ⟨injective _ _ hq, hl, Or.inr rfl⟩, rfl⟩
      · exact ⟨r, Or.inr (Or.inl hr), rfl⟩
      · exact ⟨r, Or.inr (Or.inr hr), rfl⟩
    · intro image
      obtain ⟨r, hr, rfl⟩ := image
      rcases hr with ⟨rfl, rfl, rfl | rfl⟩ | hr | hr
      · exact Or.inl ⟨rfl, rfl, Or.inl rfl⟩
      · exact Or.inl ⟨rfl, rfl, Or.inr rfl⟩
      · exact Or.inr (Or.inl ⟨r, hr, rfl⟩)
      · exact Or.inr (Or.inr ⟨r, hr, rfl⟩)

theorem isIsomorphism_followedBy (hA : IsIsomorphism f A A') (hB : IsIsomorphism f B B')
    (apart : A.states.Disjoint B.states) :
    IsIsomorphism f (followedBy A B).compact (followedBy A' B').compact := by
  have apart' := disjoint_of_isIsomorphism injective hA hB apart
  apply isIsomorphism_compact (fits_followedBy hA.source_wellFormed hB.source_wellFormed apart)
    (fits_followedBy hA.target_wellFormed hB.target_wellFormed apart') injective
  · show A'.alphabet.union B'.alphabet = A.alphabet.union B.alphabet
    rw [hA.alphabet, hB.alphabet]
  · rfl
  · exact hA.start
  · show A'.states.union B'.states = (A.states.union B.states).map f
    rw [SortedSet.map_union, hA.states, hB.states]
  · exact hB.accepting
  · intro q l p
    rw [mem_ends_followedBy hA.target_wellFormed hB.target_wellFormed apart',
      hA.mem_ends_iff injective, hB.mem_ends_iff injective, hB.start,
      hA.mem_accepting_image_iff injective]
    simp only [mem_ends_followedBy hA.source_wellFormed hB.source_wellFormed apart]
    constructor
    · intro hp
      rcases hp with ⟨r, hr, rfl⟩ | ⟨r, hr, rfl⟩ | ⟨hq, hl, rfl⟩
      · exact ⟨r, Or.inl hr, rfl⟩
      · exact ⟨r, Or.inr (Or.inl hr), rfl⟩
      · exact ⟨B.start, Or.inr (Or.inr ⟨hq, hl, rfl⟩), rfl⟩
    · intro image
      obtain ⟨r, hr, rfl⟩ := image
      rcases hr with hr | hr | ⟨hq, hl, rfl⟩
      · exact Or.inl ⟨r, hr, rfl⟩
      · exact Or.inr (Or.inl ⟨r, hr, rfl⟩)
      · exact Or.inr (Or.inr ⟨hq, hl, rfl⟩)

theorem isIsomorphism_iteratedFrom (hA : IsIsomorphism f A A') (new : start ∉ A.states) :
    IsIsomorphism f (iteratedFrom start A).compact (iteratedFrom (f start) A').compact := by
  have new' := hA.not_mem_states injective new
  apply isIsomorphism_compact (fits_iteratedFrom hA.source_wellFormed new)
    (fits_iteratedFrom hA.target_wellFormed new') injective
  · exact hA.alphabet
  · rfl
  · rfl
  · show A'.states.insert (f start) = (A.states.insert start).map f
    rw [SortedSet.map_insert, hA.states]
  · show A'.accepting.insert (f start) = (A.accepting.insert start).map f
    rw [SortedSet.map_insert, hA.accepting]
  · intro q l p
    rw [mem_ends_iteratedFrom hA.target_wellFormed new', hA.mem_ends_iff injective, hA.start,
      hA.mem_accepting_image_iff injective]
    simp only [mem_ends_iteratedFrom hA.source_wellFormed new]
    constructor
    · intro hp
      rcases hp with ⟨hq, hl, rfl⟩ | ⟨r, hr, rfl⟩ | ⟨hq, hl, rfl⟩
      · exact ⟨A.start, Or.inl ⟨injective _ _ hq, hl, rfl⟩, rfl⟩
      · exact ⟨r, Or.inr (Or.inl hr), rfl⟩
      · exact ⟨A.start, Or.inr (Or.inr ⟨hq, hl, rfl⟩), rfl⟩
    · intro image
      obtain ⟨r, hr, rfl⟩ := image
      rcases hr with ⟨rfl, rfl, rfl⟩ | hr | ⟨hq, hl, rfl⟩
      · exact Or.inl ⟨rfl, rfl, rfl⟩
      · exact Or.inr (Or.inl ⟨r, hr, rfl⟩)
      · exact Or.inr (Or.inr ⟨hq, hl, rfl⟩)

end Compositions

/-! ### Elementary automata on states that differ by a constant -/

variable {low k : State}

theorem isIsomorphism_symbolAt (c : Symbol) (low k : State) :
    IsIsomorphism (· + k) (symbolAt c low).compact (symbolAt c (low + k)).compact := by
  have injective : ∀ q r : State, q + k = r + k → q = r := fun q r => (Int.add_left_inj k).1
  apply isIsomorphism_compact (fits_symbolAt c low) (fits_symbolAt c (low + k)) injective
  · rfl
  · rfl
  · rfl
  · show SortedSet.ofList [low + k, low + k + 1] = (SortedSet.ofList [low, low + 1]).map (· + k)
    rw [Int.add_right_comm low k 1]
    exact (SortedSet.map_insert (· + k) low (.singleton (low + 1))).symm
  · show SortedSet.singleton (low + k + 1) = .singleton (low + 1 + k)
    rw [Int.add_right_comm low k 1]
  · intro q l p
    simp only [mem_ends_symbolAt]
    constructor
    · intro h
      obtain ⟨hq, hl, rfl⟩ := h
      exact ⟨low + 1, ⟨injective q low hq, hl, rfl⟩, (Int.add_right_comm low k 1).symm⟩
    · intro h
      obtain ⟨r, ⟨rfl, hl, rfl⟩, rfl⟩ := h
      exact ⟨rfl, hl, (Int.add_right_comm q k 1).symm⟩

theorem isIsomorphism_epsilonAt (low k : State) :
    IsIsomorphism (· + k) (epsilonAt low).compact (epsilonAt (low + k)).compact := by
  apply isIsomorphism_compact (fits_epsilonAt low) (fits_epsilonAt (low + k))
    (fun q r => (Int.add_left_inj k).1) rfl rfl rfl rfl rfl
  intro q l p
  constructor
  · intro h
    exact absurd h not_mem_ends_epsilonAt
  · intro h
    obtain ⟨r, hr, _⟩ := h
    exact absurd hr not_mem_ends_epsilonAt

end Automaton

open Automaton

/-! ### The automaton of an expression -/

/-- The automaton of an expression on other states is the same but for the states. -/
theorem Regex.isIsomorphism_automaton (r : Regex) (low k : State) :
    IsIsomorphism (· + k) (r.automaton low) (r.automaton (low + k)) := by
  have injective : ∀ q r : State, q + k = r + k → q = r := fun q r => (Int.add_left_inj k).1
  induction r generalizing low with
  | literal c => exact isIsomorphism_symbolAt c low k
  | union r s ihr ihs =>
    have left := r.fragment_automaton low
    have right := s.fragment_automaton (low + r.size)
    rw [automaton, automaton, Int.add_right_comm low k, Int.add_right_comm (low + r.size) k]
    exact isIsomorphism_unionFrom injective (ihr low) (ihs (low + r.size)) (left.disjoint right)
      (left.high_not_mem (Int.le_of_lt right.lt)) (right.high_not_mem (Int.le_refl _))
  | concat r s ihr ihs =>
    have left := r.fragment_automaton low
    have right := s.fragment_automaton (low + r.size)
    rw [automaton, automaton, Int.add_right_comm low k]
    exact isIsomorphism_followedBy injective (ihr low) (ihs (low + r.size)) (left.disjoint right)
  | star r ih =>
    have body := r.fragment_automaton low
    rw [automaton, automaton, Int.add_right_comm low k]
    exact isIsomorphism_iteratedFrom injective (ih low) (body.high_not_mem (Int.le_refl _))

theorem isIsomorphism_automatonFound (found : Option Regex) (low k : State) :
    IsIsomorphism (· + k) (automatonFound found low) (automatonFound found (low + k)) := by
  cases found with
  | none => exact isIsomorphism_epsilonAt low k
  | some r => exact r.isIsomorphism_automaton low k

/-! ### Compiling -/

variable {A B : Automaton} {p : Text} {counter k : State}

/-- The stages after the construction, for automata whose states differ by a constant and counters
that differ by it too. -/
theorem exists_runFrom_afterConstruction_relocated (h : IsIsomorphism (· + k) A B)
    (namesA : A.names = ∅) (namesB : B.names = ∅) (flags : Flags) (counter : State) :
    ∃ C D next, (Stages.afterConstruction flags A).runFrom counter = (.ok C, next) ∧
      (Stages.afterConstruction flags B).runFrom (counter + k) = (.ok D, next + k) ∧
      IsRelocation (· + k) k C D := by
  have ascends : ∀ q r : State, q < r → q + k < r + k := fun q r => (Int.add_lt_add_iff_right k).2
  have subsets := h.isRelocation_subsetAutomaton counter k
  have determinized := runFrom_determinize h.source_wellFormed counter
  have image := h.runFrom_determinize_image counter k
  rw [Stages.afterConstruction_eq, Stages.afterConstruction_eq]
  cases flags.minimize with
  | true =>
    simp only [if_true, Fresh.runFrom_bind, determinized, image]
    exact subsets.isIsomorphism.exists_runFrom_minimize
      (isDfa_subsetAutomaton h.source_wellFormed) (fun q r _ _ => ascends q r) _ k
  | false =>
    cases flags.determinize with
    | true => exact ⟨_, _, _, determinized, image, subsets⟩
    | false =>
      have unnamed : ∀ q, NamesAlike (· + k) (A.names.get? q) (B.names.get? (q + k)) := by
        intro q
        rw [namesA, namesB]
        exact .unnamed
      exact ⟨A, B, counter, rfl, rfl, h, unnamed⟩

/-- Compiling from two counters fails alike, or gives automata that differ, the states that names
mention included, by the difference of the counters. -/
theorem compile_relocates (p : Text) (flags : Flags) (counter k : State) :
    (∃ e next next', (compile p flags).runFrom counter = (.error e, next) ∧
      (compile p flags).runFrom (counter + k) = (.error e, next')) ∨
    ∃ A B next, (compile p flags).runFrom counter = (.ok A, next) ∧
      (compile p flags).runFrom (counter + k) = (.ok B, next + k) ∧ IsRelocation (· + k) k A B := by
  by_cases inside : InGrammar p
  · right
    obtain ⟨tokens, found, written, back, _⟩ := exists_ofPostfix_of_inGrammar inside
    have built := runFrom_build back (counter + k)
    rw [Int.add_right_comm counter k] at built
    rw [Stages.runFrom_compile_eq written (runFrom_build back counter),
      Stages.runFrom_compile_eq written built]
    exact exists_runFrom_afterConstruction_relocated (isIsomorphism_automatonFound found counter k)
      (names_automatonFound found counter) (names_automatonFound found (counter + k)) flags _
  · left
    obtain ⟨e, failed⟩ := exists_error_of_not_inGrammar inside
    obtain ⟨next, first⟩ := failed flags counter
    obtain ⟨next', second⟩ := failed flags (counter + k)
    exact ⟨.parse e, next, next', first, second⟩

/-- **State identities affect only naming.**  Determinizing automata of which one is the other
renamed, from any two counters, gives results that differ by a constant, with their states named
after a set and after its image.  So does minimizing deterministic automata of which one is the
other renamed in order.  Compiling from two counters fails alike, or gives automata that differ, the
states that names mention included, by the difference of the counters. -/
theorem identities_affect_only_naming :
    (∀ (A : Automaton) (f : State → State) (counter counter' : State), A.WellFormed →
      (∀ q r, q ∈ A.states → r ∈ A.states → f q = f r → q = r) →
      ∃ D E next next', A.determinize.runFrom counter = (.ok D, next) ∧
        (A.rename f).determinize.runFrom counter' = (.ok E, next') ∧
        IsRelocation f (counter' - counter) D E ∧
        ∀ q ∈ D.states, ∃ S, S ⊆ A.states ∧ D.names.get? q = some (subsetName S) ∧
          E.names.get? (q + (counter' - counter)) = some (subsetName (S.map f))) ∧
    (∀ (A : Automaton) (f : State → State) (counter counter' : State), A.WellFormed →
      A.kind = .deterministic →
      (∀ q r, q ∈ A.states → r ∈ A.states → q < r → f q < f r) →
      ∃ M N next next', A.minimize.runFrom counter = (.ok M, next) ∧
        (A.rename f).minimize.runFrom counter' = (.ok N, next') ∧
        IsRelocation f (counter' - counter) M N ∧
        ∀ q ∈ M.states, ∃ b, b ⊆ A.states ∧ M.names.get? q = some (setText b) ∧
          N.names.get? (q + (counter' - counter)) = some (setText (b.map f))) ∧
    ∀ (p : Text) (flags : Flags) (counter counter' : State),
      (∃ e next next', (compile p flags).runFrom counter = (.error e, next) ∧
        (compile p flags).runFrom counter' = (.error e, next')) ∨
      ∃ A B next next', (compile p flags).runFrom counter = (.ok A, next) ∧
        (compile p flags).runFrom counter' = (.ok B, next') ∧
        IsRelocation (· + (counter' - counter)) (counter' - counter) A B := by
  refine ⟨?_, ?_, ?_⟩
  · intro A f counter counter' hA injective
    have renamed := isIsomorphism_rename hA injective
    have relocation := renamed.isRelocation_subsetAutomaton counter (counter' - counter)
    have image := renamed.runFrom_determinize_image counter (counter' - counter)
    rw [add_sub_cancel counter counter'] at relocation image
    refine ⟨_, _, _, _, runFrom_determinize hA counter, image, relocation, ?_⟩
    intro q hq
    obtain ⟨S, within, name⟩ := exists_name_subsetAutomaton hA hq
    exact ⟨S, within, name, relocation.name_eq_subsetName name⟩
  · intro A f counter counter' hA kind ascends
    have injective : ∀ q r, q ∈ A.states → r ∈ A.states → f q = f r → q = r := by
      intro q r hq hr same
      rcases Int.lt_trichotomy q r with less | eq | more
      · exact absurd same (Int.ne_of_lt (ascends q r hq hr less))
      · exact eq
      · exact absurd same.symm (Int.ne_of_lt (ascends r q hr hq more))
    have renamed := isIsomorphism_rename hA injective
    obtain ⟨M, N, next, minimized, image, relocation⟩ :=
      renamed.exists_runFrom_minimize ⟨hA, kind⟩ ascends counter (counter' - counter)
    rw [add_sub_cancel counter counter'] at image
    refine ⟨M, N, _, _, minimized, image, relocation, ?_⟩
    intro q hq
    obtain ⟨b, r, hr, within, name⟩ := IsDfa.exists_name_minimize ⟨hA, kind⟩ minimized hq
    exact ⟨b, within, name, relocation.name_eq_setText hr name⟩
  · intro p flags counter counter'
    have relocated := compile_relocates p flags counter (counter' - counter)
    rw [add_sub_cancel counter counter'] at relocated
    rcases relocated with failed | ⟨A, B, next, first, second, relocation⟩
    · exact Or.inl failed
    · exact Or.inr ⟨A, B, next, _, first, second, relocation⟩

theorem eddy_pendulum_and_pattern_relocate :
    (eddy.WellFormed ∧ ∃ D E next next', eddy.determinize.runFrom 11 = (.ok D, next) ∧
      (eddy.rename (- ·)).determinize.runFrom 4 = (.ok E, next') ∧
      IsRelocation (- ·) (4 - 11) D E) ∧
    (pendulum.WellFormed ∧ ∃ M N next next', pendulum.minimize.runFrom (-4) = (.ok M, next) ∧
      (pendulum.rename (2 * · + 1)).minimize.runFrom 9 = (.ok N, next') ∧
      IsRelocation (2 * · + 1) (9 - -4) M N) ∧
    ∃ A B next next', (compile "(a*b)*".toList { minimize := true }).runFrom 7 = (.ok A, next) ∧
      (compile "(a*b)*".toList { minimize := true }).runFrom 40 = (.ok B, next') ∧
      IsRelocation (· + (40 - 7)) (40 - 7) A B := by
  obtain ⟨determinized, minimized, compiled⟩ := identities_affect_only_naming
  have ascends : ∀ q r : Int, q < r → 2 * q + 1 < 2 * r + 1 := by omega
  refine ⟨⟨wellFormed_eddy, ?_⟩, ⟨wellFormed_pendulum, ?_⟩, ?_⟩
  · obtain ⟨D, E, next, next', first, second, relocation, _⟩ :=
      determinized eddy (- ·) 11 4 wellFormed_eddy fun q r _ _ => Int.neg_inj.1
    exact ⟨D, E, next, next', first, second, relocation⟩
  · obtain ⟨M, N, next, next', first, second, relocation, _⟩ :=
      minimized pendulum (2 * · + 1) (-4) 9 wellFormed_pendulum rfl fun q r _ _ => ascends q r
    exact ⟨M, N, next, next', first, second, relocation⟩
  · rcases compiled "(a*b)*".toList { minimize := true } 7 40 with ⟨e, next, _, failed, _⟩ | pair
    · have pattern : InGrammar "(a*b)*".toList := Or.inr ⟨_, spells_nested_star⟩
      obtain ⟨A, last, run, _⟩ := exists_runFrom_compile pattern { minimize := true } 7
      rw [run] at failed
      cases failed
    · exact pair

end PatternAutomata
