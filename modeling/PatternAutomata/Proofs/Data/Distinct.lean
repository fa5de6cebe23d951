import Mathlib.Data.List.Basic
import PatternAutomata.Distinct

/-!
# First arrivals

How `distinct`, which keeps the first arrival of every member, goes together with the operations on
lists.

* `distinct_append` — the second list adds what is new in it;
* `distinct_append_of_subset` — nothing, if all of it has arrived before;
* `distinct_of_nodup` — a list without repetitions stays as it is;
* `filter_distinct` — selecting before or after makes no difference;
* `distinct_append_flatMap_distinct`, `distinct_map_distinct` — nor does it when the members are
  mapped and the images compared once more;
* `distinct_map_of_injective` — nor when the members are mapped to different ones;
* `FirstBefore`, `pairwise_distinct` — the members come in the order of their first places;
* `distinct_eq_of_pairwise_idxOf` — a list that runs through the members of another in their order.
-/

namespace PatternAutomata

variable {α β : Type} [DecidableEq α] [DecidableEq β]

/-- Only which members of the list are known matters. -/
theorem newcomers_congr {known other l : List α} (h : ∀ a ∈ l, (a ∈ known ↔ a ∈ other)) :
    newcomers known l = newcomers other l := by
  induction l generalizing known other with
  | nil => rfl
  | cons b l ih =>
    have same : occursIn b known = occursIn b other := by
      rw [Bool.eq_iff_iff, occursIn_iff, occursIn_iff]
      exact h b List.mem_cons_self
    have tail : ∀ a ∈ l, (a ∈ known ↔ a ∈ other) := fun a ha => h a (List.mem_cons_of_mem b ha)
    have grown : ∀ a ∈ l, (a ∈ b :: known ↔ a ∈ b :: other) := by
      intro a ha
      rw [List.mem_cons, List.mem_cons, tail a ha]
    simp only [newcomers, same, ih tail, ih grown]

theorem newcomers_eq_nil {known l : List α} (h : ∀ a ∈ l, a ∈ known) : newcomers known l = [] := by
  apply List.eq_nil_iff_forall_not_mem.2
  intro a ha
  obtain ⟨hl, hk⟩ := mem_newcomers.1 ha
  exact hk (h a hl)

theorem newcomers_append (known l m : List α) :
    newcomers known (l ++ m) = newcomers known l ++ newcomers (known ++ l) m := by
  induction l generalizing known with
  | nil => simp [newcomers]
  | cons b l ih =>
    simp only [List.cons_append, newcomers]
    split
    · next hb =>
      have mem := occursIn_iff.1 hb
      rw [ih]
      congr 1
      apply newcomers_congr
      intro a _
      simp only [List.mem_append, List.mem_cons]
      constructor
      · intro h
        exact h.imp_right Or.inr
      · intro h
        rcases h with h | rfl | h
        · exact Or.inl h
        · exact Or.inl mem
        · exact Or.inr h
    · rw [ih, List.cons_append]
      congr 2
      apply newcomers_congr
      intro a _
      simp only [List.mem_append, List.mem_cons]
      exact or_left_comm

theorem newcomers_of_nodup {known l : List α} (h : l.Nodup) (new : ∀ a ∈ l, a ∉ known) :
    newcomers known l = l := by
  induction l generalizing known with
  | nil => rfl
  | cons b l ih =>
    obtain ⟨hb, hl⟩ := List.nodup_cons.1 h
    have unknown : ¬ occursIn b known = true := by
      intro hk
      exact new b List.mem_cons_self (occursIn_iff.1 hk)
    rw [newcomers, if_neg unknown, ih hl]
    intro a ha hk
    rcases List.mem_cons.1 hk with rfl | hk
    · exact hb ha
    · exact new a (List.mem_cons_of_mem b ha) hk

theorem filter_newcomers (p : α → Bool) (known l : List α) :
    (newcomers known l).filter p = newcomers known (l.filter p) := by
  induction l generalizing known with
  | nil => rfl
  | cons b l ih =>
    by_cases hb : occursIn b known = true
    · rw [newcomers, if_pos hb, ih]
      by_cases hp : p b = true
      · rw [List.filter_cons_of_pos hp, newcomers, if_pos hb]
      · rw [List.filter_cons_of_neg hp]
    · rw [newcomers, if_neg hb]
      by_cases hp : p b = true
      · rw [List.filter_cons_of_pos hp, List.filter_cons_of_pos hp, ih, newcomers, if_neg hb]
      · rw [List.filter_cons_of_neg hp, List.filter_cons_of_neg hp, ih]
        -- the rejected member does not occur among the selected ones
        apply newcomers_congr
        intro a ha
        rw [List.mem_cons]
        constructor
        · intro h
          rcases h with rfl | h
          · exact absurd (List.mem_filter.1 ha).2 hp
          · exact h
        · exact Or.inr

/-- Images of members that are known already bring nothing new. -/
theorem newcomers_flatMap_newcomers {f : α → List β} {known l : List α} {seen : List β}
    (h : ∀ a ∈ known, ∀ b ∈ f a, b ∈ seen) :
    newcomers seen ((newcomers known l).flatMap f) = newcomers seen (l.flatMap f) := by
  induction l generalizing known seen with
  | nil => rfl
  | cons a l ih =>
    rw [List.flatMap_cons, newcomers_append]
    by_cases ha : occursIn a known = true
    · have nothing := h a (occursIn_iff.1 ha)
      rw [newcomers, if_pos ha, newcomers_eq_nil nothing, List.nil_append, ih h]
      apply newcomers_congr
      intro b _
      rw [List.mem_append]
      constructor
      · exact Or.inl
      · intro hb
        exact hb.elim id (nothing b)
    · rw [newcomers, if_neg ha, List.flatMap_cons, newcomers_append]
      congr 1
      apply ih
      intro x hx b hb
      rcases List.mem_cons.1 hx with rfl | hx
      · exact List.mem_append_right _ hb
      · exact List.mem_append_left _ (h x hx b hb)

/-! ### The list of first arrivals -/

theorem distinct_append (l m : List α) : distinct (l ++ m) = distinct l ++ newcomers l m := by
  unfold distinct
  rw [newcomers_append, List.nil_append]

theorem distinct_append_of_subset {l m : List α} (h : ∀ a ∈ m, a ∈ l) :
    distinct (l ++ m) = distinct l := by
  rw [distinct_append, newcomers_eq_nil h, List.append_nil]

theorem distinct_of_nodup {l : List α} (h : l.Nodup) : distinct l = l :=
  newcomers_of_nodup h fun _ _ => List.not_mem_nil

theorem filter_distinct (p : α → Bool) (l : List α) :
    (distinct l).filter p = distinct (l.filter p) := filter_newcomers p [] l

theorem distinct_append_flatMap_distinct (l : List β) (f : α → List β) (m : List α) :
    distinct (l ++ (distinct m).flatMap f) = distinct (l ++ m.flatMap f) := by
  rw [distinct_append, distinct_append]
  congr 1
  exact newcomers_flatMap_newcomers fun a ha => absurd ha List.not_mem_nil

theorem distinct_map_distinct (f : α → β) (l : List α) :
    distinct ((distinct l).map f) = distinct (l.map f) := by
  have images : ∀ m : List α, m.map f = [] ++ m.flatMap fun a => [f a] := by
    intro m
    induction m with
    | nil => rfl
    | cons a m ih => simpa using ih
  rw [images, images, distinct_append_flatMap_distinct]

theorem distinct_map_of_injective {f : α → β} {l : List α}
    (injective : ∀ a b, a ∈ l → b ∈ l → f a = f b → a = b) :
    distinct (l.map f) = (distinct l).map f := by
  have nodup : ((distinct l).map f).Nodup := by
    show ((distinct l).map f).Pairwise (· ≠ ·)
    rw [List.pairwise_map]
    refine (nodup_distinct l).imp_of_mem ?_
    intro a b ha hb different same
    exact different (injective a b (mem_distinct.1 ha) (mem_distinct.1 hb) same)
  rw [← distinct_map_distinct, distinct_of_nodup nodup]

theorem newcomers_sublist (known l : List α) : (newcomers known l).Sublist l := by
  induction l generalizing known with
  | nil => exact List.Sublist.refl []
  | cons b l ih =>
    rw [newcomers]
    split
    · exact (ih known).cons b
    · exact (ih (b :: known)).cons_cons b

/-- Whether the first place of `a` in a list comes before that of `b`. -/
def FirstBefore (l : List α) (a b : α) : Prop := l.idxOf a < l.idxOf b

theorem pairwise_newcomers (known l : List α) : (newcomers known l).Pairwise (FirstBefore l) := by
  induction l generalizing known with
  | nil => exact List.Pairwise.nil
  | cons b l ih =>
    -- a member other than the first one has its place in the rest
    have later : ∀ {known a}, b ∈ known → a ∈ newcomers known l →
        (b :: l).idxOf a = l.idxOf a + 1 := by
      intro known a hb ha
      apply List.idxOf_cons_ne
      intro same
      rw [same] at hb
      exact (mem_newcomers.1 ha).2 hb
    have shifted : ∀ {known}, b ∈ known →
        (newcomers known l).Pairwise (FirstBefore (b :: l)) := by
      intro known hb
      refine (ih known).imp_of_mem ?_
      intro a d ha hd less
      unfold FirstBefore
      rw [later hb ha, later hb hd]
      exact Nat.succ_lt_succ less
    rw [newcomers]
    split
    · next hb => exact shifted (occursIn_iff.1 hb)
    · refine List.pairwise_cons.2 ⟨?_, shifted List.mem_cons_self⟩
      intro a ha
      unfold FirstBefore
      rw [List.idxOf_cons_self, later List.mem_cons_self ha]
      exact Nat.succ_pos _

/-- The members come in the order of their first places. -/
theorem pairwise_distinct (l : List α) : (distinct l).Pairwise (FirstBefore l) :=
  pairwise_newcomers [] l

/-- A list that runs through the members of another in their order, with repetitions, has first
arrivals in this order. -/
theorem distinct_eq_of_pairwise_idxOf {l v : List α} (nodup : v.Nodup)
    (same : ∀ a, a ∈ l ↔ a ∈ v) (order : l.Pairwise fun a b => v.idxOf a ≤ v.idxOf b) :
    distinct l = v := by
  have perm : (distinct l).Perm v :=
    (List.perm_ext_iff_of_nodup (nodup_distinct l) nodup).2 fun a => mem_distinct.trans (same a)
  have ascending : v.Pairwise fun a b => v.idxOf a ≤ v.idxOf b := by
    rw [List.pairwise_iff_getElem]
    intro i j hi hj less
    rw [nodup.idxOf_getElem i hi, nodup.idxOf_getElem j hj]
    exact Nat.le_of_lt less
  refine perm.eq_of_pairwise ?_ (order.sublist (newcomers_sublist [] l)) ascending
  intro a b _ hb below above
  exact ((List.idxOf_inj hb).1 (Nat.le_antisymm above below)).symm

end PatternAutomata
