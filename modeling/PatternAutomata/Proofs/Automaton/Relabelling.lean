import PatternAutomata.Proofs.Automaton.LanguageLaws

/-!
# Relabelling

Relabelling numbers the states of an automaton from the counter on in ascending order, whatever
numbers they had, and changes nothing else.  It fails if there is a name for a state that the
automaton does not have; the fresh states are gone then, too.  A composition relabels its right
operand if that shares a state with the left one, and this is all that can keep it from giving a
result.

* `NumbersFrom` — a function numbers some states in ascending order; `numbersFrom_rankFrom`,
  `NumbersFrom.eq_of_mem` — there is exactly one;
* `IsImage` — an automaton is another one with its states renamed, in all its parts;
* `isImage_rename` — a renamed automaton is, if the renaming tells the states apart;
* `runFrom_relabel_snd`, `exists_runFrom_relabel`, `exists_runFrom_relabel_error` — the counter, the
  result and the failure;
* `Clashes` — what keeps the right operand of a composition from being relabelled;
  `exists_runFrom_apartFrom_of_not_clashes`, `exists_runFrom_apartFrom_error`;
* `relabelling_numbers_or_fails` — relabelling and compositions as a whole.
-/

namespace PatternAutomata

namespace Automaton

variable {A B C : Automaton} {f g : State → State} {p q r base counter next : State}

/-! ### Numbering states in ascending order -/

/-- `f` numbers the given states from `base` on, without gaps and in ascending order. -/
structure NumbersFrom (states : SortedSet State) (base : State) (f : State → State) : Prop where
  ascends : ∀ q r, q ∈ states → r ∈ states → q < r → f q < f r
  mem_iff : ∀ p, (∃ q, q ∈ states ∧ f q = p) ↔ base ≤ p ∧ p < base + states.size

theorem numbersFrom_rankFrom (A : Automaton) (base : State) :
    NumbersFrom A.states base (A.rankFrom base) where
  ascends := fun _ _ hq hr less => numbered_lt_numbered A.states.ascending hq hr less
  mem_iff := by
    intro p
    constructor
    · rintro ⟨q, hq, rfl⟩
      exact numbered_lt_of_mem hq
    · rintro ⟨low, high⟩
      exact exists_numbered_eq A.states.nodup_toList low high

/-- There is only one way to number some states in ascending order. -/
theorem NumbersFrom.eq_of_mem {states : SortedSet State} (hf : NumbersFrom states base f)
    (hg : NumbersFrom states base g) (hq : q ∈ states) : f q = g q := by
  have ascending : ∀ {f}, NumbersFrom states base f → (states.toList.map f).Pairwise (· < ·) := by
    intro f hf
    rw [List.pairwise_map]
    exact states.ascending.imp_of_mem fun ha hb less => hf.ascends _ _ ha hb less
  have members : ∀ {f}, NumbersFrom states base f →
      ∀ p, p ∈ states.toList.map f ↔ base ≤ p ∧ p < base + states.size := by
    intro f hf p
    rw [List.mem_map]
    exact hf.mem_iff p
  -- both list the same numbers in ascending order
  have same : states.toList.map f = states.toList.map g :=
    SortedSet.eq_of_pairwise_of_mem_iff (ascending hf) (ascending hg) fun p =>
      (members hf p).trans (members hg p).symm
  exact List.map_inj_left.1 same q hq

/-! ### Images of automata -/

/-- `B` is `A` with its states renamed by `f`, in all its parts.  The entries of the transition
table and the names stand in the same order. -/
structure IsImage (f : State → State) (A B : Automaton) : Prop where
  alphabet : B.alphabet = A.alphabet
  states : B.states = A.states.map f
  transitions : B.transitions.entries = A.transitions.entries.map fun e =>
    (⟨f e.1.source, e.1.label⟩, e.2.map f)
  start : B.start = f A.start
  accepting : B.accepting = A.accepting.map f
  kind : B.kind = A.kind
  names : B.names.entries = A.names.entries.map fun e => (f e.1, e.2)

/-- A renamed automaton is an image: no two entries, and no two names, fall together. -/
theorem isImage_rename (hA : A.WellFormed)
    (injective : ∀ q r, q ∈ A.states → r ∈ A.states → f q = f r → q = r)
    (named : ∀ q ∈ A.names.keys, q ∈ A.states) : IsImage f A (A.rename f) where
  alphabet := rfl
  states := rfl
  transitions := by
    refine OrderedMap.entries_ofList_map (m := A.transitions)
      (g := fun origin => (⟨f origin.source, origin.label⟩ : Origin))
      (h := fun ends => ends.map f) ?_
    have source : ∀ origin ∈ A.transitions.keys, origin.source ∈ A.states := by
      intro origin mem
      obtain ⟨e, he, rfl⟩ := List.mem_map.1 mem
      exact (hA.fitsEntry _ _ _ he).source_mem
    -- entries at different places stay at different places
    rintro ⟨q, l⟩ ⟨r, m⟩ hq hr same
    obtain ⟨sources, labels⟩ := Origin.mk.inj same
    have sources : q = r := injective q r (source _ hq) (source _ hr) sources
    have labels : l = m := labels
    rw [sources, labels]
  start := rfl
  accepting := rfl
  kind := rfl
  names := by
    refine OrderedMap.entries_ofList_map (m := A.names) (g := f) (h := id) ?_
    intro q r hq hr same
    exact injective q r (named q hq) (named r hr) same

/-! ### Relabelling -/

/-- The fresh states are handed out in any case. -/
theorem runFrom_relabel_snd (A : Automaton) (counter : State) :
    (A.relabel.runFrom counter).2 = counter + A.states.size := by
  unfold relabel
  rw [Fresh.runFrom_bind, Fresh.runFrom_reserve]
  cases A.names.keys.find? fun q => decide (q ∉ A.states) with
  | none => rfl
  | some q => rfl

/-- If all names are for states of the automaton, these are numbered in ascending order. -/
theorem exists_runFrom_relabel (hA : A.WellFormed) (named : ∀ q ∈ A.names.keys, q ∈ A.states)
    (counter : State) :
    ∃ f B, A.relabel.runFrom counter = (.ok B, counter + A.states.size) ∧
      NumbersFrom A.states counter f ∧ IsImage f A B ∧ IsIsomorphism f A B := by
  have injective := A.eq_of_rankFrom_eq counter
  exact ⟨A.rankFrom counter, _, runFrom_relabel hA named counter, A.numbersFrom_rankFrom counter,
    isImage_rename hA injective named, isIsomorphism_rename hA injective⟩

/-- If there is a name for another state, the first of these is reported. -/
theorem exists_runFrom_relabel_error (stray : ∃ q ∈ A.names.keys, q ∉ A.states)
    (counter : State) :
    ∃ q ∈ A.names.keys, q ∉ A.states ∧
      A.relabel.runFrom counter = (.error (.strayName q), counter + A.states.size) := by
  cases found : A.names.keys.find? fun q => decide (q ∉ A.states) with
  | none =>
    obtain ⟨q, hq, outside⟩ := stray
    have inside := List.find?_eq_none.1 found q hq
    exact absurd (decide_eq_true outside) inside
  | some q =>
    have outside : decide (q ∉ A.states) = true :=
      List.find?_some (p := fun q => decide (q ∉ A.states)) found
    refine ⟨q, List.mem_of_find?_eq_some found, of_decide_eq_true outside, ?_⟩
    unfold relabel
    rw [Fresh.runFrom_bind, Fresh.runFrom_reserve]
    simp only [found]
    rfl

/-! ### The right operand of a composition -/

/-- The automata share a state, and the second one has a name for a state that is not its own. -/
def Clashes (A B : Automaton) : Prop :=
  (∃ q, q ∈ A.states ∧ q ∈ B.states) ∧ ∃ q ∈ B.names.keys, q ∉ B.states

theorem exists_runFrom_apartFrom_of_not_clashes (hB : B.WellFormed) (h : ¬ A.Clashes B)
    (counter : State) :
    ∃ C next, (B.apartFrom A).runFrom counter = (.ok C, next) ∧ C.WellFormed := by
  by_cases apart : A.states.Disjoint B.states
  · exact ⟨B, counter, runFrom_apartFrom apart counter, hB⟩
  · have named : ∀ q ∈ B.names.keys, q ∈ B.states := by
      intro q hq
      by_contra outside
      exact h ⟨SortedSet.not_disjoint_iff.1 apart, q, hq, outside⟩
    obtain ⟨f, C, run, -, -, image⟩ := exists_runFrom_relabel hB named counter
    rw [apartFrom, if_neg apart]
    exact ⟨C, _, run, image.target_wellFormed⟩

theorem exists_runFrom_apartFrom_error (h : A.Clashes B) (counter : State) :
    ∃ q ∈ B.names.keys, q ∉ B.states ∧
      (B.apartFrom A).runFrom counter = (.error (.strayName q), counter + B.states.size) := by
  obtain ⟨shared, stray⟩ := h
  have apart : ¬ A.states.Disjoint B.states := SortedSet.not_disjoint_iff.2 shared
  rw [apartFrom, if_neg apart]
  exact exists_runFrom_relabel_error stray counter

/-- A composition of the operands fails exactly if they clash.  It reports a name for a state that
the right operand does not have then, and the states for relabelling it are gone. -/
structure FailsOnClash (x : Fresh Automaton) (A B : Automaton) (counter : State) : Prop where
  error_iff : (∃ q next, x.runFrom counter = (.error (.strayName q), next)) ↔ A.Clashes B
  of_error : ∀ e next, x.runFrom counter = (.error e, next) →
    (∃ q ∈ B.names.keys, q ∉ B.states ∧ e = .strayName q) ∧ next = counter + B.states.size

/-- An operation that goes on from the right operand of a composition, and always gives a result
then. -/
theorem failsOnClash_bind (hB : B.WellFormed) {make : Automaton → Fresh Automaton}
    (total : ∀ C, C.WellFormed → ∀ counter, ∃ D next, (make C).runFrom counter = (.ok D, next)) :
    FailsOnClash (B.apartFrom A >>= make) A B counter := by
  have failure : A.Clashes B → ∃ q ∈ B.names.keys, q ∉ B.states ∧
      (B.apartFrom A >>= make).runFrom counter =
        (.error (.strayName q), counter + B.states.size) := by
    intro clash
    obtain ⟨q, hq, outside, run⟩ := exists_runFrom_apartFrom_error clash counter
    refine ⟨q, hq, outside, ?_⟩
    rw [Fresh.runFrom_bind, run]
  have success : ¬ A.Clashes B → ∃ D next,
      (B.apartFrom A >>= make).runFrom counter = (.ok D, next) := by
    intro fine
    obtain ⟨C, next, run, hC⟩ := exists_runFrom_apartFrom_of_not_clashes hB fine counter
    rw [Fresh.runFrom_bind, run]
    exact total C hC next
  constructor
  · constructor
    · rintro ⟨q, next, run⟩
      by_contra fine
      obtain ⟨D, last, made⟩ := success fine
      rw [made] at run
      cases run
    · intro clash
      obtain ⟨q, _, _, run⟩ := failure clash
      exact ⟨q, _, run⟩
  · intro e next run
    by_cases clash : A.Clashes B
    · obtain ⟨q, hq, outside, failed⟩ := failure clash
      rw [failed] at run
      cases run
      exact ⟨⟨q, hq, outside, rfl⟩, rfl⟩
    · obtain ⟨D, last, made⟩ := success clash
      rw [made] at run
      cases run

theorem failsOnClash_union (hA : A.WellFormed) (hB : B.WellFormed) (counter : State) :
    FailsOnClash (A.union B) A B counter := by
  apply failsOnClash_bind hB
  intro C hC counter
  rw [Fresh.runFrom_bind, Fresh.runFrom_fresh]
  obtain ⟨D, next, run, _⟩ :=
    exists_runFrom_conform A (hA.fits_unionFrom hC counter) rfl (counter + 1)
  exact ⟨D, next, run⟩

theorem failsOnClash_concatenate (hA : A.WellFormed) (hB : B.WellFormed) (counter : State) :
    FailsOnClash (A.concatenate B) A B counter := by
  apply failsOnClash_bind hB
  intro C hC counter
  obtain ⟨D, next, run, _⟩ := exists_runFrom_conform A (hA.fits_followedBy hC) rfl counter
  exact ⟨D, next, run⟩

/-! ### The whole -/

/-- **Relabelling.**  From any counter, relabelling a well-formed automaton hands out as many states
as it has.  If all its names are for states of its own, the result is its image, in all parts, under
the one function that numbers its states from the counter on in ascending order, and accepts the
same texts; whatever numbers the states had, fresh ones among them, makes no difference.  If there
is a name for another state, one of these is reported.  A union and a concatenation with a
well-formed right operand fail exactly if the operands share a state and the right one has such a
name, and never in another way. -/
theorem relabelling_numbers_or_fails (hA : A.WellFormed) (counter : State) :
    (A.relabel.runFrom counter).2 = counter + A.states.size ∧
    ((∀ q ∈ A.names.keys, q ∈ A.states) →
      ∃ f B, (A.relabel.runFrom counter).1 = .ok B ∧ NumbersFrom A.states counter f ∧
        (∀ g, NumbersFrom A.states counter g → ∀ q, q ∈ A.states → g q = f q) ∧
        IsImage f A B ∧ B.WellFormed ∧ ∀ w, B.accepts w = A.accepts w) ∧
    ((∃ q ∈ A.names.keys, q ∉ A.states) →
      ∃ q ∈ A.names.keys, q ∉ A.states ∧
        (A.relabel.runFrom counter).1 = .error (.strayName q)) ∧
    ∀ B : Automaton, B.WellFormed →
      FailsOnClash (A.union B) A B counter ∧ FailsOnClash (A.concatenate B) A B counter := by
  refine ⟨A.runFrom_relabel_snd counter, ?_, ?_, ?_⟩
  · intro named
    obtain ⟨f, B, run, numbers, image, renamed⟩ := exists_runFrom_relabel hA named counter
    refine ⟨f, B, congrArg Prod.fst run, numbers, ?_, image, renamed.target_wellFormed, ?_⟩
    · intro g other q hq
      exact other.eq_of_mem numbers hq
    · intro w
      rw [Bool.eq_iff_iff, accepts_iff renamed.target_wellFormed]
      exact renamed.accepts_iff_accepts w
  · intro stray
    obtain ⟨q, hq, outside, run⟩ := exists_runFrom_relabel_error stray counter
    exact ⟨q, hq, outside, congrArg Prod.fst run⟩
  · intro B hB
    exact ⟨failsOnClash_union hA hB counter, failsOnClash_concatenate hA hB counter⟩

/-- An automaton whose states lie around the counter 0, so that some of their numbers are given out
anew: 0 and 2 are fresh states, and 0 is not the same state then. -/
def scattered : Automaton :=
  compact
    { alphabet := .singleton 'a'
      states := .ofList [-1, 0, 2]
      transitions := .ofList
        [(⟨0, some 'a'⟩, .singleton (-1)), (⟨-1, none⟩, .ofList [0, 2])]
      start := 0
      accepting := .singleton 2
      names := .ofList [(2, "last".toList), (0, "first".toList)] }

/-- The same with a name for a state that it does not have. -/
def haunted : Automaton :=
  compact { scattered with names := .ofList [(2, "last".toList), (7, "ghost".toList)] }

/-- `scattered` is numbered from 0 on; `haunted` is not, and has no union with `scattered`. -/
theorem relabelling_of_scattered_numbers_or_fails :
    scattered.WellFormed ∧ haunted.WellFormed ∧
      (∃ (f : State → State) (B : Automaton), (scattered.relabel.runFrom 0).1 = .ok B ∧
        f (-1) = 0 ∧ f 0 = 1 ∧ f 2 = 2 ∧
        B.names.entries = [(2, "last".toList), (1, "first".toList)] ∧
        B.accepts "aa".toList = true) ∧
      (∃ q next, (scattered.union haunted).runFrom 0 = (.error (.strayName q), next)) ∧
      (haunted.relabel.runFrom 5).2 = 8 := by
  have whole : scattered.WellFormed := wellFormed_compact (by decide)
  have named : haunted.WellFormed := wellFormed_compact (by decide)
  refine ⟨whole, named, ?_, ?_, (relabelling_numbers_or_fails named 5).1⟩
  · obtain ⟨_, success, -, -⟩ := relabelling_numbers_or_fails whole 0
    obtain ⟨f, B, run, -, unique, image, -, accepts⟩ := success (by decide)
    have number : ∀ q, q ∈ scattered.states → f q = scattered.rankFrom 0 q := fun q hq =>
      (unique _ (scattered.numbersFrom_rankFrom 0) q hq).symm
    have first : f 0 = 1 := number 0 (by decide)
    have last : f 2 = 2 := number 2 (by decide)
    refine ⟨f, B, run, number (-1) (by decide), first, last, ?_, ?_⟩
    · have names : B.names.entries = [(f 2, "last".toList), (f 0, "first".toList)] := image.names
      rw [names, first, last]
    · rw [accepts]
      decide
  · obtain ⟨_, -, -, compositions⟩ := relabelling_numbers_or_fails whole 0
    have stray : ∃ q ∈ haunted.names.keys, q ∉ haunted.states :=
      ⟨7, by decide, by decide⟩
    exact (compositions haunted named).1.error_iff.2 ⟨⟨0, by decide, by decide⟩, stray⟩

end Automaton

end PatternAutomata
