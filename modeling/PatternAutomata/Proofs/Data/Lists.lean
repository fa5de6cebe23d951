import Mathlib.Data.List.Basic

/-!
# More on lists

* `eq_of_map_eq_map` — lists with equal images;
* `length_flatMap_of_forall` — the length of lists of one length set side by side;
* `findSome?_filter_eq_some_iff` — what is found among the selected members;
* `forM_eq_ok` — steps that can fail, when none does.
-/

namespace PatternAutomata

variable {α β : Type}

/-- Lists are equal if their images are, and members with equal images are. -/
theorem eq_of_map_eq_map {f : α → β} {l m : List α}
    (injective : ∀ a ∈ l, ∀ b ∈ m, f a = f b → a = b) (h : l.map f = m.map f) : l = m := by
  induction l generalizing m with
  | nil => exact (List.map_eq_nil_iff.1 h.symm).symm
  | cons a l ih =>
    cases m with
    | nil => cases h
    | cons b m =>
      obtain ⟨first, rest⟩ := List.cons.inj h
      rw [injective a List.mem_cons_self b List.mem_cons_self first,
        ih (fun x hx y hy => injective x (List.mem_cons_of_mem a hx) y (List.mem_cons_of_mem b hy))
          rest]

/-- Lists of one length, side by side. -/
theorem length_flatMap_of_forall {l : List α} {f : α → List β} {n : Nat}
    (h : ∀ a ∈ l, (f a).length = n) : (l.flatMap f).length = l.length * n := by
  induction l with
  | nil => exact (Nat.zero_mul n).symm
  | cons a l ih =>
    rw [List.flatMap_cons, List.length_append, h a List.mem_cons_self,
      ih fun b hb => h b (List.mem_cons_of_mem a hb), List.length_cons, Nat.succ_mul, Nat.add_comm]

/-- The first value that a function finds in the selected members of a list. -/
theorem findSome?_filter_eq_some_iff {p : α → Bool} {f : α → Option β} {l : List α}
    {b : β} :
    (l.filter p).findSome? f = some b ↔ ∃ earlier a later, l = earlier ++ a :: later ∧
      (∀ x ∈ earlier, p x = true → f x = none) ∧ p a = true ∧ f a = some b := by
  have selected : (l.filter p).findSome? f = l.findSome? fun x => if p x then f x else none := by
    induction l with
    | nil => rfl
    | cons a l ih =>
      by_cases ha : p a = true
      · rw [List.filter_cons_of_pos ha, List.findSome?_cons, List.findSome?_cons, if_pos ha, ih]
      · rw [List.filter_cons_of_neg ha, List.findSome?_cons, if_neg ha, ih]
  rw [selected, List.findSome?_eq_some_iff]
  constructor
  · rintro ⟨earlier, a, later, rfl, found, none⟩
    by_cases ha : p a = true
    · rw [if_pos ha] at found
      refine ⟨earlier, a, later, rfl, ?_, ha, found⟩
      intro x hx kept
      have nothing := none x hx
      rwa [if_pos kept] at nothing
    · rw [if_neg ha] at found
      cases found
  · rintro ⟨earlier, a, later, rfl, none, ha, found⟩
    refine ⟨earlier, a, later, rfl, ?_, ?_⟩
    · rw [if_pos ha]
      exact found
    · intro x hx
      by_cases kept : p x = true
      · rw [if_pos kept]
        exact none x hx kept
      · rw [if_neg kept]

/-- If none of the steps for the members fails, all are taken. -/
theorem forM_eq_ok {ε : Type} {l : List α} {f : α → Except ε Unit}
    (h : ∀ a ∈ l, f a = .ok ()) : l.forM f = .ok () := by
  induction l with
  | nil => rfl
  | cons a l ih =>
    show (f a >>= fun _ => l.forM f) = .ok ()
    rw [h a List.mem_cons_self]
    exact ih fun b hb => h b (List.mem_cons_of_mem a hb)

end PatternAutomata
