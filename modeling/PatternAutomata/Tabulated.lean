import PatternAutomata.OrderedMap

/-!
# Tabulated functions

A function whose values on some arguments are worked out once and then looked up.

* `tabulated` — the values on the members of a list;
* `recalled` — the value at an argument, looked up if it has been worked out;
* `recalled_tabulated` — it makes no difference.
-/

namespace PatternAutomata

variable {α β : Type} [DecidableEq α]

omit [DecidableEq α] in
/-- The values of `f` on the members of a list, with the arguments. -/
def tabulated (l : List α) (f : α → β) : List (α × β) := l.map fun a => (a, f a)

/-- The value of `f` at `a`, looked up in a table if it stands there. -/
@[specialize] def recalled (table : List (α × β)) (f : α → β) (a : α) : β :=
  (OrderedMap.lookIn a table).getD (f a)

/-- Looking a value up gives the value. -/
theorem recalled_tabulated (l : List α) (f : α → β) (a : α) :
    recalled (tabulated l f) f a = f a := by
  unfold recalled tabulated
  induction l with
  | nil => rfl
  | cons b l ih =>
    by_cases h : a = b
    · subst h
      simp [OrderedMap.lookIn]
    · simpa [OrderedMap.lookIn, h] using ih

end PatternAutomata
