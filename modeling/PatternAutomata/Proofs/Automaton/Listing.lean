import Mathlib.Data.Char
import Mathlib.Data.Int.Order.Basic
import Mathlib.Data.List.Lex
import Mathlib.Data.Prod.Lex
import PatternAutomata.Proofs.Automaton.Assembly
import PatternAutomata.Proofs.Data.Lists

/-!
# The order of the listed transitions

All transitions are listed in a strict order, by source, then label with ε first, then end, and a
well-formed automaton has no others.  So a selection of transitions is known from its members alone.

* `Label.Before`, `Transition.Before` — the order, `Label.key`, `Origin.rank` — what the keys of the
  table are sorted by, and `Origin.rank_lt_iff` — in the same order;
* `Automaton.pairwise_listing`, `WellFormed.mem_listing_iff` — the transitions are listed in it,
  each once;
* `Transition.eq_of_mem_iff` — there is only one way to list some transitions in order;
* `Automaton.tabled` — the transitions in the order of the table;
* `WellFormed.listing_eq_sorted` — the listing goes through the table with its keys sorted;
* `WellFormed.length_listing` — as many are listed as the table counts;
  `WellFormed.length_listing_of_deterministic` — one for each state and symbol if there are no
  choices;
* `Automaton.readings` — the transitions that read a symbol, and `WellFormed.readings_eq`, which
  tells them by their sources.
-/

namespace PatternAutomata

/-- Whether a label comes before another: ε before every symbol, and symbols in their order. -/
def Label.Before : Label → Label → Prop
  | none, some _ => True
  | some c, some d => c < d
  | _, none => False

/-- Whether a transition is listed before another. -/
def Transition.Before (s t : Transition) : Prop :=
  s.source < t.source ∨ s.source = t.source ∧
    (s.label.Before t.label ∨ s.label = t.label ∧ s.target < t.target)

/-- The text that labels are sorted by, which is empty for ε. -/
def Label.key (l : Label) : Text := l.toList

theorem Label.head?_key (l : Label) : l.key.head? = l := by
  cases l with
  | none => rfl
  | some c => rfl

theorem Label.before_iff {l m : Label} : l.Before m ↔ l.key < m.key := by
  cases m with
  | none => exact iff_of_false (by cases l <;> exact id) (List.not_lt_nil _)
  | some d =>
    cases l with
    | none => exact iff_of_true trivial (List.nil_lt_cons d [])
    | some c =>
      show c < d ↔ [c] < [d]
      rw [List.cons_lt_cons_iff]
      simp

theorem Label.Before.asymm {l m : Label} (h : l.Before m) : ¬ m.Before l :=
  fun back => lt_asymm (Label.before_iff.1 h) (Label.before_iff.1 back)

theorem Label.Before.irrefl (l : Label) : ¬ l.Before l := fun h => h.asymm h

/-- What the keys of a table are sorted by: the source, and then the text of the label. -/
def Origin.rank (o : Origin) : State ×ₗ Text := toLex (o.source, o.label.key)

theorem Origin.rank_lt_iff {o p : Origin} :
    o.rank < p.rank ↔ o.source < p.source ∨ o.source = p.source ∧ o.label.Before p.label := by
  rw [Label.before_iff]
  exact Prod.Lex.toLex_lt_toLex

theorem Origin.rank_injective : Function.Injective Origin.rank := by
  intro o p same
  obtain ⟨source, label⟩ := Prod.mk.inj (toLex.injective same)
  cases o
  cases p
  exact congr (congrArg Origin.mk source) (Function.LeftInverse.injective Label.head?_key label)

namespace Transition

variable {s t : Transition} {l m : List Transition}

theorem Before.asymm (h : s.Before t) : ¬ t.Before s := by
  intro back
  rcases h with less | ⟨source, less | ⟨label, less⟩⟩
  · rcases back with more | ⟨source, _⟩
    · exact Int.lt_asymm less more
    · rw [source] at less
      exact Int.lt_irrefl _ less
  · rcases back with more | ⟨_, more | ⟨label, _⟩⟩
    · rw [source] at more
      exact Int.lt_irrefl _ more
    · exact less.asymm more
    · rw [label] at less
      exact Label.Before.irrefl _ less
  · rcases back with more | ⟨_, more | ⟨_, more⟩⟩
    · rw [source] at more
      exact Int.lt_irrefl _ more
    · rw [label] at more
      exact Label.Before.irrefl _ more
    · exact Int.lt_asymm less more

theorem Before.ne (h : s.Before t) : s ≠ t := by
  rintro rfl
  exact h.asymm h

/-- There is only one way to list some transitions in order. -/
theorem eq_of_mem_iff (hl : l.Pairwise Before) (hm : m.Pairwise Before)
    (same : ∀ t, t ∈ l ↔ t ∈ m) : l = m := by
  have perm : l.Perm m := (List.perm_ext_iff_of_nodup (hl.imp Before.ne) (hm.imp Before.ne)).2 same
  exact perm.eq_of_pairwise (fun _ _ _ _ before after => absurd after before.asymm) hl hm

end Transition

namespace Automaton

variable {A : Automaton} {t : Transition}

/-- The transitions of an entry of the table, by their ends. -/
def stepsOf (e : Origin × SortedSet State) : List Transition :=
  e.2.toList.map fun r => ⟨e.1.source, e.1.label, r⟩

theorem pairwise_stepsOf (e : Origin × SortedSet State) :
    (stepsOf e).Pairwise Transition.Before := by
  refine List.pairwise_map.2 (e.2.ascending.imp ?_)
  intro r s less
  exact Or.inr ⟨rfl, Or.inr ⟨rfl, less⟩⟩

theorem pairwise_labels (A : Automaton) : A.labels.Pairwise Label.Before := by
  refine List.pairwise_cons.2 ⟨?_, List.pairwise_map.2 A.alphabet.ascending⟩
  intro l hl
  obtain ⟨c, _, rfl⟩ := List.mem_map.1 hl
  trivial

/-- The transitions are listed in order. -/
theorem pairwise_listing (A : Automaton) : A.listing.Pairwise Transition.Before := by
  refine List.pairwise_flatMap.2 ⟨?_, A.states.ascending.imp ?_⟩
  · intro q _
    refine List.pairwise_flatMap.2 ⟨?_, A.pairwise_labels.imp ?_⟩
    · exact fun l _ => pairwise_stepsOf (⟨q, l⟩, A.ends q l)
    · intro l m before s hs t ht
      obtain ⟨e, _, rfl⟩ := List.mem_map.1 hs
      obtain ⟨f, _, rfl⟩ := List.mem_map.1 ht
      exact Or.inr ⟨rfl, Or.inl before⟩
  · intro p q less s hs t ht
    obtain ⟨l, _, hs⟩ := List.mem_flatMap.1 hs
    obtain ⟨e, _, rfl⟩ := List.mem_map.1 hs
    obtain ⟨m, _, ht⟩ := List.mem_flatMap.1 ht
    obtain ⟨f, _, rfl⟩ := List.mem_map.1 ht
    exact Or.inl less

theorem mem_labels_iff {l : Label} : l ∈ A.labels ↔ ∀ c ∈ l, c ∈ A.alphabet := by
  unfold labels
  cases l with
  | none => simp
  | some c => simp [SortedSet.mem_def]

/-- All transitions of a well-formed automaton are listed. -/
theorem WellFormed.mem_listing_iff (hA : A.WellFormed) :
    t ∈ A.listing ↔ t.target ∈ A.ends t.source t.label := by
  rw [mem_listing]
  constructor
  · intro h
    exact h.2.2
  · intro step
    have fits := hA.fitsEntry_of_mem_ends step
    exact ⟨fits.source_mem, mem_labels_iff.2 fits.symbol_mem, step⟩

/-! ### The entries of the table -/

/-- All transitions in the order of the entries of the table. -/
def tabled (A : Automaton) : List Transition := A.transitions.entries.flatMap stepsOf

theorem mem_tabled_iff : t ∈ A.tabled ↔ t.target ∈ A.ends t.source t.label := by
  obtain ⟨q, l, r⟩ := t
  simp only [tabled, stepsOf, List.mem_flatMap, List.mem_map, Transition.mk.injEq]
  constructor
  · rintro ⟨⟨⟨q', l'⟩, ends⟩, mem, r', hr, rfl, rfl, rfl⟩
    rw [ends_eq_of_mem_entries mem]
    exact hr
  · intro hr
    exact ⟨_, mem_entries_of_mem_ends hr, r, hr, rfl, rfl, rfl⟩

theorem length_tabled (A : Automaton) : A.tabled.length = A.transitionCount := by
  unfold tabled transitionCount
  induction A.transitions.entries with
  | nil => rfl
  | cons e entries ih =>
    rw [List.flatMap_cons, List.length_append, stepsOf, List.length_map, ih]
    rfl

/-! ### The sorted table -/

/-- The entries of the table, sorted by their keys. -/
def sortedEntries (A : Automaton) : List (Origin × SortedSet State) :=
  A.transitions.entries.mergeSort fun e f => decide (e.1.rank ≤ f.1.rank)

theorem pairwise_sortedEntries (A : Automaton) :
    A.sortedEntries.Pairwise fun e f => e.1.rank < f.1.rank := by
  have perm : A.sortedEntries.Perm A.transitions.entries := List.mergeSort_perm _ _
  have sorted : A.sortedEntries.Pairwise fun e f => e.1.rank ≤ f.1.rank := by
    refine (List.pairwise_mergeSort ?_ ?_ A.transitions.entries).imp of_decide_eq_true
    · intro e f g ef fg
      exact decide_eq_true (le_trans (of_decide_eq_true ef) (of_decide_eq_true fg))
    · intro e f
      rw [Bool.or_eq_true, decide_eq_true_eq, decide_eq_true_eq]
      exact le_total _ _
  have keys : A.sortedEntries.Pairwise fun e f => e.1 ≠ f.1 :=
    List.pairwise_map.1 ((perm.map Prod.fst).nodup_iff.2 A.transitions.keys_nodup)
  exact sorted.imp₂ (fun _ _ le different => lt_of_le_of_ne le (Origin.rank_injective.ne different))
    keys

theorem perm_tabled (A : Automaton) : (A.sortedEntries.flatMap stepsOf).Perm A.tabled :=
  (List.mergeSort_perm _ _).flatMap_right stepsOf

/-- The listing goes through the table with its keys sorted by source and then by label, and through
the ends of each key in ascending order. -/
theorem WellFormed.listing_eq_sorted (hA : A.WellFormed) :
    A.listing = A.sortedEntries.flatMap stepsOf := by
  refine Transition.eq_of_mem_iff A.pairwise_listing ?_ fun t => ?_
  · refine List.pairwise_flatMap.2 ⟨?_, A.pairwise_sortedEntries.imp ?_⟩
    · exact fun e _ => pairwise_stepsOf e
    · intro e f less s hs t ht
      obtain ⟨_, _, rfl⟩ := List.mem_map.1 hs
      obtain ⟨_, _, rfl⟩ := List.mem_map.1 ht
      rcases Origin.rank_lt_iff.1 less with source | ⟨source, label⟩
      · exact Or.inl source
      · exact Or.inr ⟨source, Or.inl label⟩
  · rw [hA.mem_listing_iff, A.perm_tabled.mem_iff, mem_tabled_iff]

/-! ### Counting -/

/-- As many transitions are listed as the table counts. -/
theorem WellFormed.length_listing (hA : A.WellFormed) : A.listing.length = A.transitionCount := by
  rw [hA.listing_eq_sorted, A.perm_tabled.length_eq, length_tabled]

/-- Without choices there is one transition for each state and symbol. -/
theorem WellFormed.length_listing_of_deterministic (hA : A.WellFormed)
    (kind : A.kind = .deterministic) : A.listing.length = A.states.size * A.alphabet.size := by
  obtain ⟨silent, steps⟩ := hA.deterministic kind
  apply length_flatMap_of_forall
  intro q hq
  have reading : ((A.alphabet.toList.map some).flatMap fun l =>
      (A.ends q l).toList.map fun e => (⟨q, l, e⟩ : Transition)).length = A.alphabet.size := by
    rw [length_flatMap_of_forall (n := 1), List.length_map, Nat.mul_one]
    · rfl
    · intro l hl
      obtain ⟨c, hc, rfl⟩ := List.mem_map.1 hl
      rw [List.length_map]
      exact steps q hq c hc
  rw [labels, List.flatMap_cons, silent q hq]
  exact reading

/-! ### Transitions that read a symbol -/

/-- The transitions that read a symbol, in their order. -/
def readings (A : Automaton) : List Transition := A.listing.filter fun t => t.label.isSome

theorem WellFormed.mem_readings_iff (hA : A.WellFormed) :
    t ∈ A.readings ↔ t.label.isSome = true ∧ t.target ∈ A.ends t.source t.label := by
  rw [readings, List.mem_filter, hA.mem_listing_iff, and_comm]

/-- The transitions that read a symbol, known by their members if their sources ascend. -/
theorem WellFormed.readings_eq (hA : A.WellFormed) {l : List Transition}
    (ascending : l.Pairwise fun s t => s.source < t.source)
    (mem_iff : ∀ t, t ∈ l ↔ t.label.isSome = true ∧ t.target ∈ A.ends t.source t.label) :
    A.readings = l :=
  Transition.eq_of_mem_iff (A.pairwise_listing.filter _) (ascending.imp Or.inl) fun t =>
    hA.mem_readings_iff.trans (mem_iff t).symm

end Automaton

end PatternAutomata
