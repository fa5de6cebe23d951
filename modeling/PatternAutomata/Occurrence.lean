/-!
# Occurrence in a list

* `occursIn a l` — whether `a` is a member of `l`, found by going through `l` from the front;
* `occursIn_eq_elem` — it is `List.elem`, compiled for the type of the members;
* `occursIn_iff` — that is membership.
-/

namespace PatternAutomata

/-- Whether `a` is a member of a list. -/
@[specialize] def occursIn {α : Type} [DecidableEq α] (a : α) : List α → Bool
  | [] => false
  | b :: l => if a = b then true else occursIn a l

theorem occursIn_eq_elem {α : Type} [DecidableEq α] (a : α) (l : List α) :
    occursIn a l = l.elem a := by
  induction l with
  | nil => rfl
  | cons b l ih => by_cases h : a = b <;> simp [occursIn, h, ih]

theorem occursIn_iff {α : Type} [DecidableEq α] {a : α} {l : List α} :
    occursIn a l = true ↔ a ∈ l := by
  rw [occursIn_eq_elem, List.elem_iff]

end PatternAutomata
