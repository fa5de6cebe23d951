import PatternAutomata.Proofs.Automaton.Determinization
import PatternAutomata.Proofs.Automaton.Quotient

/-!
# The names of states

The name of a state of a subset automaton says which set of states it stands for: the numbers in it
can be read back, and no set is written like the empty one.  A state of a quotient is named after
its block in the same way.

* `bracedText_injective` — states in braces can be read back;
* `subsetName_eq_deadName_iff`, `subsetName_injective` — the name of a set tells the set;
* `get?_numberedNames`, `exists_of_get?_numberedNames` — names that are given along a list;
* `get?_names_subsetAutomaton`, `mem_states_of_mem_names_subsetAutomaton` — the names of the states
  of a subset automaton, and of nothing else;
* `get?_names_quotientBy`, `mem_states_of_mem_names_quotientBy` — those of a quotient.
-/

namespace PatternAutomata

/-! ### Reading numbers back -/

theorem not_mem_decimal {c : Char} (digit : c.isDigit = false) (minus : c ≠ '-') (n : Int) :
    c ∉ decimal n := by
  have plain : c ∉ digits n.natAbs := by
    intro h
    rw [isDigit_of_mem_digits h] at digit
    cases digit
  unfold decimal
  split
  · intro h
    rcases List.mem_cons.1 h with h | h
    · exact minus h
    · exact plain h
  · exact plain

/-- Numbers with commas between them can be read back. -/
theorem splitOn_joined_decimal {l : List State} (nonempty : l ≠ []) :
    (joined [','] (l.map decimal)).splitOn ',' = l.map decimal := by
  rw [joined_eq_intercalate]
  apply List.splitOn_intercalate
  · intro t ht
    obtain ⟨n, _, rfl⟩ := List.mem_map.1 ht
    exact not_mem_decimal rfl (by decide) n
  · intro h
    exact nonempty (List.map_eq_nil_iff.1 h)

/-- Nothing but the empty list is written as nothing between the braces. -/
theorem joined_decimal_eq_nil_iff {l : List State} :
    joined [','] (l.map decimal) = [] ↔ l = [] := by
  constructor
  · intro h
    match l with
    | [] => rfl
    | [n] => exact absurd h (decimal_ne_nil n)
    | m :: n :: l =>
      rw [List.map_cons, List.map_cons, joined, List.append_assoc] at h
      exact absurd (List.append_eq_nil_iff.1 h).1 (decimal_ne_nil m)
  · intro h
    rw [h]
    rfl

/-- States in braces can be read back. -/
theorem bracedText_injective {l m : List State} (h : bracedText l = bracedText m) : l = m := by
  unfold bracedText at h
  have same := List.append_cancel_right (List.cons.inj h).2
  by_cases hl : l = []
  · have none := joined_decimal_eq_nil_iff.2 hl
    rw [same] at none
    rw [hl, joined_decimal_eq_nil_iff.1 none]
  · by_cases hm : m = []
    · have none := joined_decimal_eq_nil_iff.2 hm
      rw [← same] at none
      exact absurd (joined_decimal_eq_nil_iff.1 none) hl
    · have parts : l.map decimal = m.map decimal := by
        rw [← splitOn_joined_decimal hl, ← splitOn_joined_decimal hm, same]
      exact List.map_injective_iff.2 (fun _ _ => decimal_injective) parts

/-! ### The name of a set -/

variable {S T : SortedSet State}

theorem setText_injective (h : setText S = setText T) : S = T :=
  SortedSet.eq_of_toList_eq (bracedText_injective h)

theorem setText_ne_deadName (S : SortedSet State) : setText S ≠ deadName := by
  intro h
  have first : '\x7b' = '∅' := (List.cons.inj h).1
  exact absurd first (by decide)

/-- Only the empty set is named as the dead state. -/
theorem subsetName_eq_deadName_iff : subsetName S = deadName ↔ S = ∅ := by
  rw [← SortedSet.isEmpty_iff_eq_empty]
  unfold subsetName
  split
  · next h => exact ⟨fun _ => h, fun _ => rfl⟩
  · next h => exact ⟨fun same => absurd same (setText_ne_deadName S), fun same => absurd same h⟩

theorem subsetName_of_ne_empty (h : S ≠ ∅) : subsetName S = setText S := by
  unfold subsetName
  rw [if_neg]
  intro none
  exact h (SortedSet.isEmpty_iff_eq_empty.1 none)

theorem subsetName_of_mem {q : State} (h : q ∈ S) : subsetName S = setText S :=
  subsetName_of_ne_empty (SortedSet.ne_empty_of_mem h)

/-- The name of a set tells the set. -/
theorem subsetName_injective (h : subsetName S = subsetName T) : S = T := by
  by_cases hS : S = ∅
  · rw [subsetName_eq_deadName_iff.2 hS] at h
    rw [hS, subsetName_eq_deadName_iff.1 h.symm]
  · have hT : T ≠ ∅ := by
      intro hT
      rw [subsetName_eq_deadName_iff.2 hT] at h
      exact hS (subsetName_eq_deadName_iff.1 h)
    rw [subsetName_of_ne_empty hS, subsetName_of_ne_empty hT] at h
    exact setText_injective h

/-! ### Names that are given along a list -/

section Numbered

variable {α : Type} [DecidableEq α] {l : List α} {base : State} {a : α} {q : State} {t : Text}

/-- The members of a list, numbered in their order, with names. -/
def numberedNames (l : List α) (base : State) (text : α → Text) : OrderedMap State Text :=
  .ofList (l.map fun a => (numbered l base a, text a))

variable {text : α → Text}

theorem get?_numberedNames (ha : a ∈ l) :
    (numberedNames l base text).get? (numbered l base a) = some (text a) := by
  apply OrderedMap.get?_ofList_eq_some
  · exact List.mem_map.2 ⟨a, ha, rfl⟩
  · intro u hu
    obtain ⟨b, hb, same⟩ := List.mem_map.1 hu
    rw [Prod.mk.injEq] at same
    rw [← same.2, eq_of_numbered_eq hb same.1]

theorem exists_of_get?_numberedNames (h : (numberedNames l base text).get? q = some t) :
    ∃ a ∈ l, numbered l base a = q ∧ text a = t := by
  obtain ⟨a, ha, same⟩ := List.mem_map.1 (OrderedMap.mem_of_get?_ofList h)
  rw [Prod.mk.injEq] at same
  exact ⟨a, ha, same⟩

end Numbered

namespace Automaton

variable {A : Automaton} {base q : State}

/-- Each state of a subset automaton is named after the set that it stands for. -/
theorem get?_names_subsetAutomaton (hS : S ∈ A.subsets) :
    (A.subsetAutomaton base).names.get? (numbered A.subsets base S) = some (subsetName S) :=
  get?_numberedNames hS

/-- Nothing but a state of a subset automaton is named in it. -/
theorem mem_states_of_mem_names_subsetAutomaton
    (h : q ∈ (A.subsetAutomaton base).names.keys) : q ∈ (A.subsetAutomaton base).states := by
  obtain ⟨t, ht⟩ := OrderedMap.mem_keys_iff.1 h
  obtain ⟨S, hS, number, _⟩ := exists_of_get?_numberedNames ht
  exact mem_states_subsetAutomaton.2 ⟨S, hS, number⟩

variable {blocks : List Block} {b : Block}

theorem mem_states_quotientBy_iff_numbered :
    q ∈ (A.quotientBy blocks base).states ↔ ∃ b ∈ blocks, numbered blocks base b = q := by
  show q ∈ SortedSet.ofList (blocks.map (numbered blocks base)) ↔ _
  rw [SortedSet.mem_ofList, List.mem_map]

/-- Each state of a quotient is named after its block. -/
theorem get?_names_quotientBy (hb : b ∈ blocks) :
    (A.quotientBy blocks base).names.get? (numbered blocks base b) = some (setText b) :=
  get?_numberedNames hb

/-- Nothing but a state of a quotient is named in it. -/
theorem mem_states_of_mem_names_quotientBy
    (h : q ∈ (A.quotientBy blocks base).names.keys) : q ∈ (A.quotientBy blocks base).states := by
  obtain ⟨t, ht⟩ := OrderedMap.mem_keys_iff.1 h
  obtain ⟨b, hb, number, _⟩ := exists_of_get?_numberedNames ht
  exact mem_states_quotientBy_iff_numbered.2 ⟨b, hb, number⟩

end Automaton

end PatternAutomata
