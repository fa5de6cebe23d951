import PatternAutomata.Occurrence

/-!
# Lists without repetitions

The members of a list, each at its first place.

* `newcomers known l` — the members of `l` that are not known yet;
* `distinct l` — all members of `l`;
* `mem_distinct`, `nodup_distinct` — the same members, and none twice;
* `distinct_eq_eraseDups` — this is `List.eraseDups`, by a recursion on the list.
-/

namespace PatternAutomata

variable {α : Type} [DecidableEq α]

/-- The members of a list that are not known yet, each at its first place. -/
@[specialize] def newcomers (known : List α) : List α → List α
  | [] => []
  | a :: l => if occursIn a known then newcomers known l else a :: newcomers (a :: known) l

/-- The members of a list, each at its first place. -/
def distinct (l : List α) : List α := newcomers [] l

theorem mem_newcomers {known l : List α} {a : α} : a ∈ newcomers known l ↔ a ∈ l ∧ a ∉ known := by
  induction l generalizing known with
  | nil => simp [newcomers]
  | cons b l ih =>
    simp only [newcomers]
    split
    · rename_i hb
      replace hb := occursIn_iff.1 hb
      rw [ih, List.mem_cons]
      constructor
      · rintro ⟨ha, hk⟩
        exact ⟨Or.inr ha, hk⟩
      · rintro ⟨rfl | ha, hk⟩
        · exact absurd hb hk
        · exact ⟨ha, hk⟩
    · rename_i hb
      replace hb : b ∉ known := fun h => hb (occursIn_iff.2 h)
      simp only [List.mem_cons, ih, not_or]
      constructor
      · rintro (rfl | ⟨ha, -, hk⟩)
        · exact ⟨Or.inl rfl, hb⟩
        · exact ⟨Or.inr ha, hk⟩
      · rintro ⟨rfl | ha, hk⟩
        · exact Or.inl rfl
        · by_cases hab : a = b
          · exact Or.inl hab
          · exact Or.inr ⟨ha, hab, hk⟩

theorem nodup_newcomers (known l : List α) : (newcomers known l).Nodup := by
  induction l generalizing known with
  | nil => exact List.nodup_nil
  | cons b l ih =>
    simp only [newcomers]
    split
    · exact ih known
    · refine List.nodup_cons.2 ⟨fun h => ?_, ih (b :: known)⟩
      exact (mem_newcomers.1 h).2 List.mem_cons_self

@[simp] theorem mem_distinct {l : List α} {a : α} : a ∈ distinct l ↔ a ∈ l := by
  simp [distinct, mem_newcomers]

theorem nodup_distinct (l : List α) : (distinct l).Nodup := nodup_newcomers [] l

theorem newcomers_eq_eraseDups (known l : List α) :
    newcomers known l = (l.filter fun a => !occursIn a known).eraseDups := by
  induction l generalizing known with
  | nil => rfl
  | cons b l ih =>
    rw [newcomers, List.filter_cons]
    by_cases hb : occursIn b known = true
    · simp only [hb, if_true, Bool.not_true, Bool.false_eq_true, if_false, ih]
    · have others : (l.filter fun a => !occursIn a (b :: known)) =
          (l.filter fun a => !occursIn a known).filter fun a => !a == b := by
        rw [List.filter_filter]
        refine List.filter_congr fun a _ => ?_
        by_cases h : a = b <;> simp [occursIn, h]
      rw [if_neg hb, if_pos (by simp [hb]), List.eraseDups_cons, ih, others]

theorem distinct_eq_eraseDups (l : List α) : distinct l = l.eraseDups := by
  have unknown : (l.filter fun a => !occursIn a []) = l := List.filter_eq_self.2 fun _ _ => rfl
  rw [distinct, newcomers_eq_eraseDups, unknown]

end PatternAutomata
