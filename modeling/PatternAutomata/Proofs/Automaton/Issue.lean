import PatternAutomata.Proofs.Automaton.Composition
import PatternAutomata.Proofs.Automaton.Naming
import PatternAutomata.Proofs.Automaton.Renaming
import PatternAutomata.Proofs.Session.Counter

/-!
# Automata whose states have been handed out

Automata that are well formed, have states below the counter and names for their own states only can
be composed in every way, also with themselves and with automata that share some of their states.
The result is such an automaton again, and its states are those of the operands and fresh ones.

* `Issued` — automata of this kind;
* `Makes` — an operation makes one, of old states and fresh ones;
* `makes_determinize`, `makes_minimize`, `makes_pruned`, `makes_relabel` — operations on one
  automaton;
* `exists_runFrom_apartFrom`, `exists_isIsomorphism_of_apartFrom` — the right operand shares no state
  with the left one afterwards, and is the same but for its states;
* `makes_conform`, `makes_union`, `makes_concatenate`, `makes_star` — compositions.
-/

namespace PatternAutomata

namespace Automaton

variable {A B C D : Automaton} {q base counter next : State} {old : State → Prop}
  {x : Fresh Automaton}

/-- Well formed, with states below the counter and names for its own states only. -/
structure Issued (A : Automaton) (counter : State) : Prop where
  wellFormed : A.WellFormed
  below : ∀ q, q ∈ A.states → q < counter
  named : ∀ q, q ∈ A.names.keys → q ∈ A.states

theorem Issued.mono (h : A.Issued counter) (le : counter ≤ next) : A.Issued next :=
  ⟨h.wellFormed, fun q hq => Int.lt_of_lt_of_le (h.below q hq) le, h.named⟩

/-- The counter is a new state for an automaton with states below it. -/
theorem not_mem_of_forall_lt (below : ∀ q, q ∈ A.states → q < counter) : counter ∉ A.states :=
  fun mem => Int.lt_irrefl counter (below counter mem)

/-- An automaton without names has no names for other states. -/
theorem named_of_names_eq_empty (h : A.names = ∅) (q : State) (hq : q ∈ A.names.keys) :
    q ∈ A.states := by
  rw [h] at hq
  exact absurd hq List.not_mem_nil

/-- From the counter, the operation makes an automaton of old states and fresh ones. -/
def Makes (x : Fresh Automaton) (old : State → Prop) (counter : State) : Prop :=
  ∃ A next, x.runFrom counter = (.ok A, next) ∧ A.Issued next ∧
    ∀ q, q ∈ A.states → old q ∨ counter ≤ q

/-- An operation that goes on from a later counter with what is old or fresh by then. -/
theorem Makes.of_later {y : Fresh Automaton} {older : State → Prop} (h : Makes y old next)
    (run : x.runFrom counter = y.runFrom next) (le : counter ≤ next)
    (known : ∀ q, old q → older q ∨ counter ≤ q) : Makes x older counter := by
  obtain ⟨A, last, made, issued, origin⟩ := h
  refine ⟨A, last, run.trans made, issued, ?_⟩
  intro q hq
  rcases origin q hq with hold | hnew
  · exact known q hold
  · exact Or.inr (Int.le_trans le hnew)

/-- An operation that makes an automaton of fresh states alone. -/
theorem Makes.of_fresh (h : Makes x (fun _ => False) counter) : Makes x old counter :=
  h.of_later rfl (Int.le_refl counter) fun _ impossible => impossible.elim

/-! ### Elementary automata -/

theorem makes_symbol (c : Symbol) (counter : State) :
    Makes (symbol c) (fun _ => False) counter := by
  have bounds : ∀ q counter : Int, q = counter ∨ q = counter + 1 →
      counter ≤ q ∧ q < counter + 1 + 1 := by omega
  have states : ∀ q, q ∈ (symbolAt c counter).states → q = counter ∨ q = counter + 1 := by
    intro q hq
    simpa using SortedSet.mem_ofList.1 hq
  have wellFormed := (fits_symbolAt c counter).wellFormed_compact
  refine ⟨_, _, runFrom_symbol c counter, ⟨wellFormed, ?_, ?_⟩, ?_⟩
  · intro q hq
    exact (bounds q counter (states q hq)).2
  · exact named_of_names_eq_empty rfl
  · intro q hq
    exact Or.inr (bounds q counter (states q hq)).1

/-- An operation that takes one state and makes an automaton of it. -/
theorem makes_of_states_eq_singleton (run : x.runFrom counter = (.ok A, counter + 1))
    (hA : A.WellFormed) (states : A.states = .singleton counter) (names : A.names = ∅) :
    Makes x (fun _ => False) counter := by
  have only : ∀ q, q ∈ A.states → q = counter := by
    intro q hq
    rw [states] at hq
    exact SortedSet.mem_singleton.1 hq
  refine ⟨A, counter + 1, run, ⟨hA, ?_, named_of_names_eq_empty names⟩, ?_⟩
  · intro q hq
    rw [only q hq]
    exact Int.lt_succ counter
  · intro q hq
    rw [only q hq]
    exact Or.inr (Int.le_refl counter)

theorem makes_epsilon (counter : State) : Makes epsilon (fun _ => False) counter :=
  makes_of_states_eq_singleton (runFrom_epsilon counter) (fits_epsilonAt counter).wellFormed_compact
    rfl rfl

theorem makes_empty (counter : State) : Makes empty (fun _ => False) counter :=
  makes_of_states_eq_singleton (runFrom_empty counter) (fits_emptyAt counter).wellFormed_compact
    rfl rfl

/-! ### Operations on one automaton -/

theorem bounds_of_mem_states_subsetAutomaton (h : q ∈ (A.subsetAutomaton base).states) :
    base ≤ q ∧ q < base + A.subsets.length := by
  obtain ⟨S, hS, rfl⟩ := mem_states_subsetAutomaton.1 h
  exact numbered_lt_of_mem hS

theorem issued_subsetAutomaton (hA : A.WellFormed) (base : State) :
    (A.subsetAutomaton base).Issued (base + A.subsets.length) where
  wellFormed := (isDfa_subsetAutomaton hA).wellFormed
  below := fun _ hq => (bounds_of_mem_states_subsetAutomaton hq).2
  named := fun _ hq => mem_states_of_mem_names_subsetAutomaton hq

/-- Determinizing makes an automaton of fresh states. -/
theorem makes_determinize (hA : A.WellFormed) (counter : State) :
    Makes A.determinize (fun _ => False) counter :=
  ⟨_, _, runFrom_determinize hA counter, issued_subsetAutomaton hA counter,
    fun _ hq => Or.inr (bounds_of_mem_states_subsetAutomaton hq).1⟩

theorem bounds_of_mem_states_quotientBy {blocks : List Block}
    (h : q ∈ (A.quotientBy blocks base).states) : base ≤ q ∧ q < base + blocks.length := by
  obtain ⟨b, hb, rfl⟩ := mem_states_quotientBy_iff_numbered.1 h
  exact numbered_lt_of_mem hb

theorem IsDfa.makes_minimize (hD : D.IsDfa) (counter : State) :
    Makes D.minimize (fun _ => False) counter := by
  obtain ⟨B, part, minimized⟩ := hD.exists_runFrom_minimize
  refine ⟨_, _, minimized counter, ⟨part.reduced_quotientBy.isDfa.wellFormed, ?_, ?_⟩, ?_⟩
  · exact fun q hq => (bounds_of_mem_states_quotientBy hq).2
  · exact fun q hq => mem_states_of_mem_names_quotientBy hq
  · exact fun q hq => Or.inr (bounds_of_mem_states_quotientBy hq).1

/-- Minimizing makes an automaton of fresh states. -/
theorem makes_minimize (hA : A.WellFormed) (counter : State) :
    Makes A.minimize (fun _ => False) counter := by
  obtain ⟨D, next, made, hD, _⟩ := exists_runFrom_ensureDeterministic hA counter
  have le := A.ascending_ensureDeterministic.le_of_runFrom made
  exact (hD.makes_minimize next).of_later (runFrom_minimize_of_dfa made hD) le fun _ h => h.elim

theorem mem_states_of_mem_names_prune (pruned : A.prune = .ok B)
    (named : ∀ q, q ∈ A.names.keys → q ∈ A.states) (hq : q ∈ B.names.keys) : q ∈ B.states := by
  unfold prune at pruned
  split at pruned
  · cases pruned
    exact named q hq
  · obtain ⟨_, rfl⟩ := assemble_eq_ok_iff.1 pruned
    obtain ⟨e, he, rfl⟩ := List.mem_map.1 hq
    exact of_decide_eq_true (List.mem_filter.1 he).2

/-- Pruning a deterministic automaton makes an automaton of its states. -/
theorem makes_pruned (hA : A.Issued counter) (kind : A.kind = .deterministic) :
    Makes A.pruned (fun q => q ∈ A.states) counter := by
  have hD : A.IsDfa := ⟨hA.wellFormed, kind⟩
  obtain ⟨B, pruned, part⟩ := hD.exists_prune
  have states : ∀ q, q ∈ B.states → q ∈ A.states := fun q hq =>
    hD.mem_states_of_reaches ((part.mem_states_iff q).1 hq)
  refine ⟨B, counter, ?_, ⟨part.isDfa.wellFormed, ?_, ?_⟩, fun q hq => Or.inl (states q hq)⟩
  · rw [runFrom_pruned, pruned]
    rfl
  · exact fun q hq => hA.below q (states q hq)
  · exact fun q hq => mem_states_of_mem_names_prune pruned hA.named hq

/-- Relabelling makes an automaton of fresh states. -/
theorem makes_relabel (hA : A.Issued counter) (base : State) :
    Makes A.relabel (fun _ => False) base := by
  refine ⟨_, _, runFrom_relabel hA.wellFormed hA.named base, ⟨?_, ?_, ?_⟩, ?_⟩
  · exact wellFormed_rename hA.wellFormed (eq_of_rankFrom_eq base)
  · exact fun q hq => (rankFrom_bounds_of_mem hq).2
  · intro q hq
    obtain ⟨p, hp, rfl⟩ := exists_of_mem_keys_names_rename hq
    exact SortedSet.mem_map_of_mem (hA.named p hp)
  · exact fun q hq => Or.inr (rankFrom_bounds_of_mem hq).1

/-! ### Compositions -/

/-- The right operand of a composition, which shares no state with the left one afterwards: either
it did not before, or all its states are fresh. -/
theorem exists_runFrom_apartFrom (hA : A.Issued counter) (hB : B.Issued counter) :
    ∃ C next, (B.apartFrom A).runFrom counter = (.ok C, next) ∧ counter ≤ next ∧ C.Issued next ∧
      A.states.Disjoint C.states ∧ ∀ q, q ∈ C.states → q ∈ B.states ∨ counter ≤ q := by
  by_cases apart : A.states.Disjoint B.states
  · exact ⟨B, counter, runFrom_apartFrom apart counter, Int.le_refl counter, hB, apart,
      fun q hq => Or.inl hq⟩
  · obtain ⟨C, next, made, issued, origin⟩ := makes_relabel hB counter
    have fresh : ∀ q, q ∈ C.states → counter ≤ q := fun q hq => (origin q hq).resolve_left id
    have le := B.ascending_relabel.le_of_runFrom made
    refine ⟨C, next, ?_, le, issued, ?_, fun q hq => Or.inr (fresh q hq)⟩
    · rw [apartFrom, if_neg apart]
      exact made
    · intro q hqA hqC
      exact Int.lt_irrefl q (Int.lt_of_lt_of_le (hA.below q hqA) (fresh q hqC))

/-- The right operand of a composition is taken as it is or with its states renamed. -/
theorem exists_isIsomorphism_of_apartFrom (hB : B.Issued counter)
    (made : (B.apartFrom A).runFrom counter = (.ok C, next)) : ∃ f, IsIsomorphism f B C := by
  by_cases apart : A.states.Disjoint B.states
  · rw [runFrom_apartFrom apart] at made
    cases made
    exact ⟨id, isIsomorphism_id hB.wellFormed⟩
  · rw [apartFrom, if_neg apart, runFrom_relabel hB.wellFormed hB.named] at made
    cases made
    exact ⟨_, isIsomorphism_rename hB.wellFormed (eq_of_rankFrom_eq counter)⟩

/-- A composition is put together and made deterministic if the left operand is. -/
theorem makes_conform (A : Automaton) (fits : C.Fits)
    (below : ∀ q, q ∈ C.states → q < counter) (unnamed : C.names = ∅) :
    Makes (A.conform C) (fun q => q ∈ C.states) counter := by
  cases kind : A.kind with
  | nondeterministic =>
    exact ⟨_, _, runFrom_conform kind fits counter,
      ⟨fits.wellFormed_compact, below, named_of_names_eq_empty unnamed⟩, fun q hq => Or.inl hq⟩
  | deterministic =>
    exact (makes_determinize fits.wellFormed_compact counter).of_later
      (runFrom_conform_of_deterministic kind fits counter) (Int.le_refl counter) fun _ h => h.elim

/-- The union of two automata, which may share states, and may be one automaton. -/
theorem makes_union (hA : A.Issued counter) (hB : B.Issued counter) :
    Makes (A.union B) (fun q => q ∈ A.states ∨ q ∈ B.states) counter := by
  obtain ⟨C, next, run, le, hC, apart, origin⟩ := exists_runFrom_apartFrom hA hB
  have above : counter ≤ next + 1 := Int.le_trans le (Int.le_of_lt (Int.lt_succ next))
  have belowA : ∀ q, q ∈ A.states → q < next := (hA.mono le).below
  have fits : (unionFrom next A C).Fits :=
    fits_unionFrom hA.wellFormed hC.wellFormed apart (not_mem_of_forall_lt belowA)
      (not_mem_of_forall_lt hC.below)
  have states : ∀ q, q ∈ (unionFrom next A C).states →
      q = next ∨ q ∈ A.states ∨ q ∈ C.states := by
    intro q hq
    rcases SortedSet.mem_insert.1 hq with hq | hq
    · exact Or.inl hq
    · exact Or.inr (SortedSet.mem_union.1 hq)
  have below : ∀ q, q ∈ (unionFrom next A C).states → q < next + 1 := by
    intro q hq
    rcases states q hq with rfl | hq | hq
    · exact Int.lt_succ q
    · exact Int.lt_trans (belowA q hq) (Int.lt_succ next)
    · exact Int.lt_trans (hC.below q hq) (Int.lt_succ next)
  refine (makes_conform A fits below rfl).of_later (runFrom_union_of_apartFrom run) above ?_
  intro q hq
  rcases states q hq with rfl | hq | hq
  · exact Or.inr le
  · exact Or.inl (Or.inl hq)
  · exact (origin q hq).imp_left Or.inr

/-- The concatenation of two automata, which may share states, and may be one automaton. -/
theorem makes_concatenate (hA : A.Issued counter) (hB : B.Issued counter) :
    Makes (A.concatenate B) (fun q => q ∈ A.states ∨ q ∈ B.states) counter := by
  obtain ⟨C, next, run, le, hC, apart, origin⟩ := exists_runFrom_apartFrom hA hB
  have fits : (followedBy A C).Fits := fits_followedBy hA.wellFormed hC.wellFormed apart
  have below : ∀ q, q ∈ (followedBy A C).states → q < next := by
    intro q hq
    rcases SortedSet.mem_union.1 hq with hq | hq
    · exact (hA.mono le).below q hq
    · exact hC.below q hq
  refine (makes_conform A fits below rfl).of_later (runFrom_concatenate_of_apartFrom run) le ?_
  intro q hq
  rcases SortedSet.mem_union.1 hq with hq | hq
  · exact Or.inl (Or.inl hq)
  · exact (origin q hq).imp_left Or.inr

theorem makes_star (hA : A.Issued counter) :
    Makes A.star (fun q => q ∈ A.states) counter := by
  have fits : (iteratedFrom counter A).Fits :=
    fits_iteratedFrom hA.wellFormed (not_mem_of_forall_lt hA.below)
  have below : ∀ q, q ∈ (iteratedFrom counter A).states → q < counter + 1 := by
    intro q hq
    rcases SortedSet.mem_insert.1 hq with rfl | hq
    · exact Int.lt_succ q
    · exact Int.lt_trans (hA.below q hq) (Int.lt_succ counter)
  refine (makes_conform A fits below rfl).of_later (A.runFrom_star_eq counter)
    (Int.le_of_lt (Int.lt_succ counter)) ?_
  intro q hq
  rcases SortedSet.mem_insert.1 hq with rfl | hq
  · exact Or.inr (Int.le_refl q)
  · exact Or.inl hq

end Automaton

end PatternAutomata
