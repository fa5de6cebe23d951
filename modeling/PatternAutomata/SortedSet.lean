import PatternAutomata.Occurrence

/-!
# Sorted sets

A finite set kept as its members in strictly ascending order.  The order makes the representation
unique, so two sets with the same members are equal (`SortedSet.ext`), and every walk over a set
goes through its members from the smallest to the largest.

* `insert`, `ofList`, `union`, `filter`, `sdiff`, `map`, `bind` — the operations;
* `mem_insert`, `mem_ofList`, `mem_union`, … — each operation through membership.
-/

namespace PatternAutomata

/-- A finite set of `α` as the ascending list of its members. -/
structure SortedSet (α : Type) [LT α] where
  toList : List α
  ascending : toList.Pairwise (· < ·)
  deriving DecidableEq

namespace SortedSet

variable {α β : Type} [LT α] [LT β]

instance : Membership α (SortedSet α) where
  mem s a := a ∈ s.toList

instance : EmptyCollection (SortedSet α) where
  emptyCollection := ⟨[], List.Pairwise.nil⟩

instance : Inhabited (SortedSet α) where
  default := ∅

@[inline] instance [DecidableEq α] (a : α) (s : SortedSet α) : Decidable (a ∈ s) :=
  decidable_of_iff (occursIn a s.toList = true) occursIn_iff

instance : HasSubset (SortedSet α) where
  Subset s t := ∀ a ∈ s.toList, a ∈ t

instance [DecidableEq α] (s t : SortedSet α) : Decidable (s ⊆ t) :=
  inferInstanceAs (Decidable (∀ a ∈ s.toList, a ∈ t))

/-- No member in common. -/
def Disjoint (s t : SortedSet α) : Prop := ∀ a ∈ s.toList, a ∉ t

instance [DecidableEq α] (s t : SortedSet α) : Decidable (s.Disjoint t) :=
  inferInstanceAs (Decidable (∀ a ∈ s.toList, a ∉ t))

/-- The number of members. -/
def size (s : SortedSet α) : Nat := s.toList.length

/-- Whether there is no member. -/
def isEmpty (s : SortedSet α) : Bool := s.toList.isEmpty

/-- The members that satisfy `p`. -/
def filter (p : α → Bool) (s : SortedSet α) : SortedSet α :=
  ⟨s.toList.filter p, s.ascending.filter p⟩

/-- The members of `s` that are not members of `t`. -/
def sdiff [DecidableEq α] (s t : SortedSet α) : SortedSet α := s.filter (· ∉ t)

/-- The members that `s` and `t` share. -/
def inter [DecidableEq α] (s t : SortedSet α) : SortedSet α := s.filter (· ∈ t)

/-! ### Membership -/

theorem mem_def {a : α} {s : SortedSet α} : a ∈ s ↔ a ∈ s.toList := Iff.rfl

@[simp] theorem not_mem_empty (a : α) : a ∉ (∅ : SortedSet α) := List.not_mem_nil

@[simp] theorem mem_filter {p : α → Bool} {s : SortedSet α} {a : α} :
    a ∈ s.filter p ↔ a ∈ s ∧ p a = true := List.mem_filter

@[simp] theorem mem_sdiff [DecidableEq α] {s t : SortedSet α} {a : α} :
    a ∈ s.sdiff t ↔ a ∈ s ∧ a ∉ t := by simp [sdiff]

@[simp] theorem mem_inter [DecidableEq α] {s t : SortedSet α} {a : α} :
    a ∈ s.inter t ↔ a ∈ s ∧ a ∈ t := by simp [inter]

theorem isEmpty_iff {s : SortedSet α} : s.isEmpty = true ↔ ∀ a, a ∉ s := by
  simp only [isEmpty, List.isEmpty_iff, mem_def]
  exact List.eq_nil_iff_forall_not_mem

/-! ### Building sets from members -/

section Order

/-- The set with one member. -/
def singleton (a : α) : SortedSet α := ⟨[a], List.pairwise_singleton _ _⟩

@[simp] theorem mem_singleton {a x : α} : x ∈ singleton a ↔ x = a := List.mem_singleton

variable [LE α] [DecidableLT α] [Std.IsLinearOrder α] [Std.LawfulOrderLT α]

/-- Puts `a` in front of the first larger member of an ascending list, unless it is there already.
-/
@[specialize] def insertIn (a : α) : List α → List α
  | [] => [a]
  | b :: l => if a < b then a :: b :: l else if b < a then b :: insertIn a l else b :: l

theorem mem_insertIn {a x : α} {l : List α} : x ∈ insertIn a l ↔ x = a ∨ x ∈ l := by
  induction l with
  | nil => simp [insertIn]
  | cons b l ih =>
    simp only [insertIn]
    split
    · simp
    · split
      · simp only [List.mem_cons, ih]
        exact or_left_comm
      · rename_i h₁ h₂
        have : a = b := Std.Trichotomous.trichotomous (r := (· < ·)) a b h₁ h₂
        simp [this]

theorem pairwise_insertIn {a : α} {l : List α} (h : l.Pairwise (· < ·)) :
    (insertIn a l).Pairwise (· < ·) := by
  induction l with
  | nil => simp [insertIn]
  | cons b l ih =>
    obtain ⟨hb, hl⟩ := List.pairwise_cons.1 h
    simp only [insertIn]
    split
    · rename_i hab
      refine List.pairwise_cons.2 ⟨fun x hx => ?_, h⟩
      rcases List.mem_cons.1 hx with rfl | hx
      · exact hab
      · exact Std.lt_trans hab (hb x hx)
    · split
      · rename_i hba
        refine List.pairwise_cons.2 ⟨fun x hx => ?_, ih hl⟩
        rcases mem_insertIn.1 hx with rfl | hx
        · exact hba
        · exact hb x hx
      · exact h

/-- The set with `a` as one more member. -/
def insert (a : α) (s : SortedSet α) : SortedSet α :=
  ⟨insertIn a s.toList, pairwise_insertIn s.ascending⟩

/-- The set of the members of a list, in any order and with repetitions. -/
def ofList (l : List α) : SortedSet α := l.foldr insert ∅

/-- The members of either set. -/
def union (s t : SortedSet α) : SortedSet α := s.toList.foldr insert t

/-- The images of the members. -/
def map (f : β → α) (s : SortedSet β) : SortedSet α := ofList (s.toList.map f)

/-- The members of all the sets that `f` gives for the members of `s`. -/
def bind (s : SortedSet β) (f : β → SortedSet α) : SortedSet α :=
  ofList (s.toList.flatMap fun b => (f b).toList)

@[simp] theorem mem_insert {a x : α} {s : SortedSet α} : x ∈ s.insert a ↔ x = a ∨ x ∈ s :=
  mem_insertIn

theorem mem_foldr_insert {x : α} {l : List α} {s : SortedSet α} :
    x ∈ l.foldr insert s ↔ x ∈ l ∨ x ∈ s := by
  induction l with
  | nil => simp
  | cons a l ih => simp [ih, or_assoc]

@[simp] theorem mem_ofList {x : α} {l : List α} : x ∈ ofList l ↔ x ∈ l := by
  simp [ofList, mem_foldr_insert]

@[simp] theorem mem_union {x : α} {s t : SortedSet α} : x ∈ s.union t ↔ x ∈ s ∨ x ∈ t :=
  mem_foldr_insert

/-- The members of any of the sets. -/
def unions (sets : List (SortedSet α)) : SortedSet α := sets.foldr union ∅

@[simp] theorem mem_unions {x : α} {sets : List (SortedSet α)} :
    x ∈ unions sets ↔ ∃ s ∈ sets, x ∈ s := by
  induction sets with
  | nil => simp [unions]
  | cons s sets ih =>
    have step : unions (s :: sets) = s.union (unions sets) := rfl
    simp [step, ih]

@[simp] theorem mem_map {f : β → α} {s : SortedSet β} {y : α} :
    y ∈ s.map f ↔ ∃ x, x ∈ s ∧ f x = y := by
  simp [map, mem_def (s := s)]

@[simp] theorem mem_bind {f : β → SortedSet α} {s : SortedSet β} {y : α} :
    y ∈ s.bind f ↔ ∃ x, x ∈ s ∧ y ∈ f x := by
  simp [bind, mem_def (s := s), mem_def (s := f _)]

/-! ### A set is determined by its members -/

omit [DecidableLT α] in
theorem eq_of_pairwise_of_mem_iff {l m : List α} (hl : l.Pairwise (· < ·))
    (hm : m.Pairwise (· < ·)) (h : ∀ a, a ∈ l ↔ a ∈ m) : l = m := by
  induction l generalizing m with
  | nil =>
    exact (List.eq_nil_iff_forall_not_mem.2 fun a ha => List.not_mem_nil ((h a).2 ha)).symm
  | cons a l ih =>
    cases m with
    | nil => exact absurd ((h a).1 List.mem_cons_self) List.not_mem_nil
    | cons b m =>
      obtain ⟨ha, hl'⟩ := List.pairwise_cons.1 hl
      obtain ⟨hb, hm'⟩ := List.pairwise_cons.1 hm
      obtain rfl : a = b := by
        rcases List.mem_cons.1 ((h a).1 List.mem_cons_self) with hab | hab
        · exact hab
        · rcases List.mem_cons.1 ((h b).2 List.mem_cons_self) with hba | hba
          · exact hba.symm
          · exact absurd (Std.lt_trans (ha b hba) (hb a hab)) Std.lt_irrefl
      refine congrArg (a :: ·) (ih hl' hm' fun x => ⟨fun hx => ?_, fun hx => ?_⟩)
      · rcases List.mem_cons.1 ((h x).1 (List.mem_cons_of_mem _ hx)) with rfl | hx'
        · exact absurd (ha x hx) Std.lt_irrefl
        · exact hx'
      · rcases List.mem_cons.1 ((h x).2 (List.mem_cons_of_mem _ hx)) with rfl | hx'
        · exact absurd (hb x hx) Std.lt_irrefl
        · exact hx'

omit [DecidableLT α] in
/-- Two sets with the same members are equal. -/
theorem ext {s t : SortedSet α} (h : ∀ a, a ∈ s ↔ a ∈ t) : s = t := by
  obtain ⟨l, hl⟩ := s
  obtain ⟨m, hm⟩ := t
  have : l = m := eq_of_pairwise_of_mem_iff hl hm h
  subst this
  rfl

end Order

end SortedSet

end PatternAutomata
