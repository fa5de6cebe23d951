/-!
# One step after another

What the outcome of two steps, either of which can fail, tells about each of them.

* `exists_of_bind_eq_ok` — if they give something, both do;
* `error_or_of_bind_eq_error` — if they fail, one of them does;
* `GivesOrFails` — an outcome that is known but for errors of a certain kind, and
  `GivesOrFails.bind`, `GivesOrFails.findSomeM?` — steps one after another.
-/

namespace PatternAutomata

variable {ε α β : Type} {x : Except ε α} {f : α → Except ε β} {b : β} {e : ε}

/-- If two steps give something, so does the first, and the second goes on from that. -/
theorem exists_of_bind_eq_ok (h : x.bind f = .ok b) : ∃ a, x = .ok a ∧ f a = .ok b := by
  cases x with
  | error e => cases h
  | ok a => exact ⟨a, rfl, h⟩

/-- If two steps fail, the first does, or the second does when it goes on from the first. -/
theorem error_or_of_bind_eq_error (h : x.bind f = .error e) :
    x = .error e ∨ ∃ a, x = .ok a ∧ f a = .error e := by
  cases x with
  | error d =>
    cases h
    exact Or.inl rfl
  | ok a => exact Or.inr ⟨a, rfl, h⟩

/-- An outcome that is `a` unless it is an error with the property `P`. -/
inductive GivesOrFails (P : ε → Prop) (a : α) : Except ε α → Prop where
  | gives : GivesOrFails P a (.ok a)
  | fails {e : ε} : P e → GivesOrFails P a (.error e)

namespace GivesOrFails

variable {P : ε → Prop} {a : α}

theorem bind (hx : GivesOrFails P a x) (hf : GivesOrFails P b (f a)) :
    GivesOrFails P b (x.bind f) := by
  cases hx with
  | gives => exact hf
  | fails failed => exact .fails failed

/-- The first hit in a list, if looking at a member can fail. -/
theorem findSomeM? {g : α → Option β} {f : α → Except ε (Option β)} {l : List α}
    (h : ∀ a ∈ l, GivesOrFails P (g a) (f a)) :
    GivesOrFails P (l.findSome? g) (l.findSomeM? f) := by
  induction l with
  | nil => exact .gives
  | cons a l ih =>
    obtain ⟨here, later⟩ := List.forall_mem_cons.1 h
    rw [List.findSome?_cons, List.findSomeM?]
    refine here.bind ?_
    cases g a with
    | some b => exact .gives
    | none => exact ih later

end GivesOrFails

end PatternAutomata
