import Mathlib.Logic.ExistsUnique
import PatternAutomata.SortedSet

/-!
# More on sorted sets

* `not_disjoint_iff` — sets that are not disjoint share a member; `not_subset_iff` — a set that is
  not part of another has a member that the other has not;
* `eq_of_toList_eq` — a set is known from the list of its members;
* `size_eq_one_iff`, `size_eq_one_iff_existsUnique` — sets with one member;
* `exists_head?_of_mem`, `ne_empty_of_mem` — a set with a member has a first one, and is not empty;
  `isEmpty_eq_false_iff`, `isEmpty_eq_false_iff_ne_empty`, `ne_empty_iff` — one that is not empty;
* `toList_ofList` — the set of an ascending list;
* `size_eq_length` — the number of members, counted in any list of them; `size_insert`, `size_union`,
  `size_map` — of larger sets and images;
* `eq_of_map_eq`, `toList_map` — images under functions that tell the members apart, and under those
  that keep their order;
* `map_id`, `map_union`, `map_insert` — images under the identity, and of larger sets.
-/

namespace PatternAutomata

namespace SortedSet

variable {α : Type} [LT α] {s t : SortedSet α}

theorem not_disjoint_iff : ¬ s.Disjoint t ↔ ∃ a, a ∈ s ∧ a ∈ t := by
  show ¬ (∀ a ∈ s, a ∉ t) ↔ _
  simp only [Classical.not_forall, Classical.not_not, exists_prop]

theorem not_subset_iff : ¬ s ⊆ t ↔ ∃ a, a ∈ s ∧ a ∉ t := by
  show ¬ (∀ a ∈ s, a ∈ t) ↔ _
  simp only [Classical.not_forall, exists_prop]

theorem eq_of_toList_eq (h : s.toList = t.toList) : s = t := by
  obtain ⟨l, hl⟩ := s
  obtain ⟨m, hm⟩ := t
  subst h
  rfl

theorem size_eq_one_iff : s.size = 1 ↔ ∃ a, s = singleton a := by
  constructor
  · intro h
    obtain ⟨a, ha⟩ := List.length_eq_one_iff.1 h
    obtain ⟨l, hl⟩ := s
    subst ha
    exact ⟨a, rfl⟩
  · intro h
    obtain ⟨a, rfl⟩ := h
    rfl

theorem toList_singleton (a : α) : (singleton a).toList = [a] := rfl

theorem singleton_injective {a b : α} (h : singleton a = singleton b) : a = b :=
  List.head_eq_of_cons_eq (congrArg toList h)

theorem exists_head?_of_mem {a : α} (h : a ∈ s) : ∃ b, s.toList.head? = some b ∧ b ∈ s := by
  rw [mem_def] at h
  have nonempty := List.ne_nil_of_mem h
  refine ⟨s.toList.head nonempty, List.head?_eq_some_head nonempty, ?_⟩
  rw [mem_def]
  exact List.head_mem nonempty

theorem isEmpty_eq_false_iff : s.isEmpty = false ↔ ∃ a, a ∈ s := by
  constructor
  · intro h
    cases hs : s.toList with
    | nil => simp [isEmpty, hs] at h
    | cons a l => exact ⟨a, by rw [mem_def, hs]; exact List.mem_cons_self⟩
  · intro h
    obtain ⟨a, ha⟩ := h
    cases hs : s.isEmpty with
    | false => rfl
    | true => exact absurd ha (isEmpty_iff.1 hs a)

theorem ne_empty_of_mem {a : α} (h : a ∈ s) : s ≠ ∅ := by
  intro none
  rw [none] at h
  exact not_mem_empty a h

theorem isEmpty_iff_eq_empty : s.isEmpty = true ↔ s = ∅ := by
  constructor
  · intro h
    obtain ⟨l, hl⟩ := s
    obtain rfl : l = [] := List.isEmpty_iff.1 h
    rfl
  · intro h
    rw [h]
    rfl

theorem isEmpty_eq_false_iff_ne_empty : s.isEmpty = false ↔ s ≠ ∅ := by
  rw [← Bool.not_eq_true, isEmpty_iff_eq_empty]

theorem ne_empty_iff : s ≠ ∅ ↔ ∃ a, a ∈ s := by
  rw [← isEmpty_eq_false_iff_ne_empty, isEmpty_eq_false_iff]

theorem eq_empty_iff : s = ∅ ↔ ∀ a, a ∉ s := by
  rw [← isEmpty_iff_eq_empty, isEmpty_iff]

theorem nodup_toList [LE α] [Std.LawfulOrderLT α] (s : SortedSet α) : s.toList.Nodup := by
  refine s.ascending.imp ?_
  intro a b hab same
  rw [same] at hab
  exact Std.lt_irrefl hab

/-- A list of the members, none twice, is as long as there are members. -/
theorem size_eq_length [LE α] [Std.LawfulOrderLT α] {l : List α} (nodup : l.Nodup)
    (members : ∀ a, a ∈ s ↔ a ∈ l) : s.size = l.length :=
  ((List.perm_ext_iff_of_nodup s.nodup_toList nodup).2 members).length_eq

variable [LE α] [DecidableLT α] [Std.IsLinearOrder α] [Std.LawfulOrderLT α]

omit [DecidableLT α] in
theorem size_eq_one_iff_existsUnique : s.size = 1 ↔ ∃! a, a ∈ s := by
  rw [size_eq_one_iff]
  constructor
  · rintro ⟨a, rfl⟩
    exact ⟨a, mem_singleton.2 rfl, fun b hb => mem_singleton.1 hb⟩
  · rintro ⟨a, ha, unique⟩
    refine ⟨a, ext fun b => ?_⟩
    rw [mem_singleton]
    constructor
    · exact unique b
    · rintro rfl
      exact ha

theorem size_insert {a : α} (new : a ∉ s) : (s.insert a).size = s.size + 1 := by
  apply size_eq_length (List.nodup_cons.2 ⟨new, s.nodup_toList⟩)
  intro b
  rw [mem_insert, List.mem_cons, mem_def]

theorem size_union (apart : s.Disjoint t) : (s.union t).size = s.size + t.size := by
  have nodup : (s.toList ++ t.toList).Nodup := by
    refine List.nodup_append.2 ⟨s.nodup_toList, t.nodup_toList, ?_⟩
    intro a ha b hb same
    rw [← same] at hb
    exact apart a ha hb
  have members : ∀ a, a ∈ s.union t ↔ a ∈ s.toList ++ t.toList := by
    intro a
    rw [mem_union, List.mem_append, mem_def, mem_def]
  rw [size_eq_length nodup members, List.length_append]
  rfl

/-- The members of an ascending list are listed as they stand. -/
theorem toList_ofList {l : List α} (h : l.Pairwise (· < ·)) : (ofList l).toList = l :=
  eq_of_pairwise_of_mem_iff (ofList l).ascending h fun _ => mem_ofList

variable {β : Type} [LT β] {f : β → α} {u v w : SortedSet β}

theorem mem_map_of_mem {b : β} (h : b ∈ u) : f b ∈ u.map f := mem_map.2 ⟨b, h, rfl⟩

/-- The image under a function that tells the members apart is as large. -/
theorem size_map [LE β] [DecidableLT β] [Std.IsLinearOrder β] [Std.LawfulOrderLT β]
    (injective : ∀ a b, a ∈ u → b ∈ u → f a = f b → a = b) : (u.map f).size = u.size := by
  have nodup : (u.toList.map f).Pairwise (· ≠ ·) := by
    rw [List.pairwise_map]
    exact u.nodup_toList.imp_of_mem fun ha hb hab same => hab (injective _ _ ha hb same)
  have members : ∀ a, a ∈ u.map f ↔ a ∈ u.toList.map f := fun _ => mem_ofList
  rw [size_eq_length nodup members, List.length_map]
  rfl

/-- Sets within one on which a function tells the members apart have the same image only if they
are equal. -/
theorem eq_of_map_eq [LE β] [DecidableLT β] [Std.IsLinearOrder β] [Std.LawfulOrderLT β]
    (injective : ∀ a b, a ∈ w → b ∈ w → f a = f b → a = b) (hu : u ⊆ w) (hv : v ⊆ w)
    (same : u.map f = v.map f) : u = v := by
  have within : ∀ {s t : SortedSet β}, s ⊆ w → t ⊆ w → s.map f = t.map f → ∀ a, a ∈ s → a ∈ t := by
    intro s t hs ht same a ha
    have image : f a ∈ t.map f := by
      rw [← same]
      exact mem_map.2 ⟨a, ha, rfl⟩
    obtain ⟨b, hb, eq⟩ := mem_map.1 image
    rw [← injective b a (ht b hb) (hs a ha) eq]
    exact hb
  exact ext fun a => ⟨within hu hv same a, within hv hu same.symm a⟩

/-- The image under a function that keeps the order of the members is listed in that order. -/
theorem toList_map (ascends : ∀ a b, a ∈ u → b ∈ u → a < b → f a < f b) :
    (u.map f).toList = u.toList.map f := by
  apply toList_ofList
  rw [List.pairwise_map]
  exact u.ascending.imp_of_mem fun ha hb hab => ascends _ _ ha hb hab

variable [LE β] [DecidableLT β] [Std.IsLinearOrder β] [Std.LawfulOrderLT β]

theorem map_id (u : SortedSet β) : u.map id = u := by
  apply ext
  intro b
  rw [mem_map]
  exact exists_eq_right

theorem map_union (f : β → α) (u v : SortedSet β) :
    (u.union v).map f = (u.map f).union (v.map f) := by
  apply ext
  intro b
  simp only [mem_map, mem_union, or_and_right, exists_or]

theorem map_insert (f : β → α) (a : β) (u : SortedSet β) :
    (u.insert a).map f = (u.map f).insert (f a) := by
  apply ext
  intro b
  simp only [mem_map, mem_insert, or_and_right, exists_or, exists_eq_left, eq_comm (a := b)]

end SortedSet

end PatternAutomata
