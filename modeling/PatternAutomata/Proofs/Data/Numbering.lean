import Mathlib.Data.List.Basic

/-!
# Numbering the members of a list

* `numbered` — the number of a member when the members are numbered consecutively in their order;
* `eq_of_numbered_eq` — different members have different numbers;
* `exists_numbered_eq`, `exists_numbered_eq_iff` — and together they have all the numbers from the
  first one on;
* `numbered_append` — which stay as they are when the list grows;
* `pairwise_map_numbered`, `numbered_lt_numbered` — the numbers ascend along the list;
* `numbered_map` — the images of the members, if they differ, are numbered like the members.
-/

namespace PatternAutomata

variable {α : Type} [DecidableEq α] {l : List α} {base : Int} {a b : α}

/-- The number of a member when the members are numbered from `base` in their order. -/
def numbered (l : List α) (base : Int) (a : α) : Int := base + l.idxOf a

theorem eq_of_numbered_eq (ha : a ∈ l) (h : numbered l base a = numbered l base b) : a = b := by
  unfold numbered at h
  have same : l.idxOf a = l.idxOf b := by omega
  exact (List.idxOf_inj ha).1 same

theorem numbered_lt_of_mem (ha : a ∈ l) :
    base ≤ numbered l base a ∧ numbered l base a < base + l.length := by
  have bound := List.idxOf_lt_length_of_mem ha
  unfold numbered
  omega

/-- As many numbers as there are members are given from the base on. -/
theorem exists_numbered_eq (nodup : l.Nodup) {p : Int} (low : base ≤ p)
    (high : p < base + l.length) : ∃ a ∈ l, numbered l base a = p := by
  obtain ⟨i, rfl⟩ := Int.le.dest low
  have bound : i < l.length := by omega
  refine ⟨l[i], List.getElem_mem bound, ?_⟩
  unfold numbered
  rw [nodup.idxOf_getElem i bound]

/-- The members have the numbers from the base on, as many as there are members. -/
theorem exists_numbered_eq_iff (nodup : l.Nodup) {p : Int} :
    (∃ a ∈ l, numbered l base a = p) ↔ base ≤ p ∧ p < base + l.length := by
  constructor
  · rintro ⟨a, ha, rfl⟩
    exact numbered_lt_of_mem ha
  · rintro ⟨low, high⟩
    exact exists_numbered_eq nodup low high

/-- Members that come later leave the numbers as they are. -/
theorem numbered_append (ha : a ∈ l) (more : List α) :
    numbered (l ++ more) base a = numbered l base a := by
  unfold numbered
  rw [List.idxOf_append_of_mem ha]

theorem pairwise_map_numbered (h : l.Nodup) : (l.map (numbered l base)).Pairwise (· < ·) := by
  rw [List.pairwise_map, List.pairwise_iff_getElem]
  intro i j hi hj hij
  unfold numbered
  rw [h.idxOf_getElem i hi, h.idxOf_getElem j hj]
  omega

/-- The members of an ascending list are numbered in their order. -/
theorem numbered_lt_numbered [LT α] [LE α] [Std.IsLinearOrder α] [Std.LawfulOrderLT α]
    (ascending : l.Pairwise (· < ·)) (ha : a ∈ l) (hb : b ∈ l) (h : a < b) :
    numbered l base a < numbered l base b := by
  have later : ¬ l.idxOf b ≤ l.idxOf a := by
    intro earlier
    rcases Nat.lt_or_eq_of_le earlier with less | same
    · have reversed := List.pairwise_iff_getElem.1 ascending _ _ (List.idxOf_lt_length_of_mem hb)
        (List.idxOf_lt_length_of_mem ha) less
      rw [List.getElem_idxOf, List.getElem_idxOf] at reversed
      exact Std.lt_irrefl (Std.lt_trans h reversed)
    · rw [(List.idxOf_inj hb).1 same] at h
      exact Std.lt_irrefl h
  unfold numbered
  omega

variable {β : Type} [DecidableEq β] {f : α → β}

theorem idxOf_map (injective : ∀ a b, a ∈ l → b ∈ l → f a = f b → a = b) (ha : a ∈ l) :
    (l.map f).idxOf (f a) = l.idxOf a := by
  induction l with
  | nil => exact absurd ha List.not_mem_nil
  | cons b l ih =>
    rw [List.map_cons]
    by_cases same : b = a
    · rw [same, List.idxOf_cons_self, List.idxOf_cons_self]
    · have images : f b ≠ f a := fun h => same (injective b a List.mem_cons_self ha h)
      have later : a ∈ l := (List.mem_cons.1 ha).resolve_left fun h => same h.symm
      rw [List.idxOf_cons_ne _ images, List.idxOf_cons_ne _ same, ih _ later]
      intro x y hx hy
      exact injective x y (List.mem_cons_of_mem b hx) (List.mem_cons_of_mem b hy)

/-- The images of the members, if they differ, are numbered like the members. -/
theorem numbered_map (injective : ∀ a b, a ∈ l → b ∈ l → f a = f b → a = b) (ha : a ∈ l)
    (k : Int) : numbered (l.map f) (base + k) (f a) = numbered l base a + k := by
  unfold numbered
  rw [idxOf_map injective ha]
  omega

end PatternAutomata
