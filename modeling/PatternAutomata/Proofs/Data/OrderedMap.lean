import PatternAutomata.Tabulated

/-!
# More on ordered maps

* `get?_insertAll_of_not_mem` — other keys keep their values;
* `get?_ofList_eq_some` — a key that stands in the list with one value only has that value;
* `get?_ofList_congr` — lists with the same entries make maps with the same values;
* `lookIn_tabulated` — looking up in a table of values;
* `get?_filter` — a selected map has the values that are selected;
* `mem_keys_iff` — the keys are what can be looked up;
* `exists_mem_of_mem_keys_ofList` — the keys of a map made from a list stand in the list;
* `entries_ofList`, `entries_ofList_map` — a list with different keys is kept as it stands.
-/

namespace PatternAutomata

namespace OrderedMap

variable {κ ν : Type} [DecidableEq κ] {k : κ} {v : ν} {l : List (κ × ν)} {m : OrderedMap κ ν}

theorem insertAll_cons (m : OrderedMap κ ν) (e : κ × ν) (l : List (κ × ν)) :
    m.insertAll (e :: l) = (m.insert e.1 e.2).insertAll l := rfl

theorem get?_insertAll_of_not_mem (h : ∀ v, (k, v) ∉ l) : (m.insertAll l).get? k = m.get? k := by
  induction l generalizing m with
  | nil => rfl
  | cons e l ih =>
    have other : k ≠ e.1 := by
      intro hk
      apply h e.2
      rw [hk]
      exact List.mem_cons_self
    rw [insertAll_cons, ih fun v hv => h v (List.mem_cons_of_mem _ hv), get?_insert,
      if_neg other]

/-- A key of the list gets one of the values that it has there. -/
theorem exists_get?_insertAll (h : (k, v) ∈ l) :
    ∃ u, (k, u) ∈ l ∧ (m.insertAll l).get? k = some u := by
  induction l generalizing m v with
  | nil => exact absurd h List.not_mem_nil
  | cons e l ih =>
    rw [insertAll_cons]
    by_cases later : ∃ u, (k, u) ∈ l
    · obtain ⟨u, hu⟩ := later
      obtain ⟨t, ht, look⟩ := ih (m := m.insert e.1 e.2) hu
      exact ⟨t, List.mem_cons_of_mem _ ht, look⟩
    · have absent : ∀ u, (k, u) ∉ l := fun u hu => later ⟨u, hu⟩
      rcases List.mem_cons.1 h with rfl | hl
      · refine ⟨v, List.mem_cons_self, ?_⟩
        rw [get?_insertAll_of_not_mem absent, get?_insert, if_pos rfl]
      · exact absurd hl (absent v)

theorem get?_ofList_eq_some (h : (k, v) ∈ l) (unique : ∀ u, (k, u) ∈ l → u = v) :
    (ofList l).get? k = some v := by
  obtain ⟨u, hu, look⟩ := exists_get?_insertAll (m := ∅) h
  rw [unique u hu] at look
  exact look

/-- Lists with the same entries, one value for each key, make maps with the same values. -/
theorem get?_ofList_congr {other : List (κ × ν)} (same : ∀ e, e ∈ l ↔ e ∈ other)
    (unique : ∀ k u v, (k, u) ∈ l → (k, v) ∈ l → u = v) (k : κ) :
    (ofList l).get? k = (ofList other).get? k := by
  apply Option.ext
  intro v
  constructor
  · intro h
    have mem := mem_of_get?_ofList h
    refine get?_ofList_eq_some ((same _).1 mem) fun u hu => ?_
    exact unique k u v ((same _).2 hu) mem
  · intro h
    have mem := (same _).2 (mem_of_get?_ofList h)
    exact get?_ofList_eq_some mem fun u hu => unique k u v hu mem

theorem lookIn_tabulated (keys : List κ) (f : κ → ν) (k : κ) :
    lookIn k (tabulated keys f) = if k ∈ keys then some (f k) else none := by
  induction keys with
  | nil => rfl
  | cons a keys ih =>
    show (if k = a then some (f a) else lookIn k (tabulated keys f)) = _
    by_cases h : k = a
    · rw [if_pos h, if_pos (by rw [h]; exact List.mem_cons_self), h]
    · rw [if_neg h, ih]
      simp only [List.mem_cons, h, false_or]

theorem get?_filter (p : κ → ν → Bool) (m : OrderedMap κ ν) (k : κ) :
    (m.filter p).get? k = (m.get? k).filter (p k) := by
  apply Option.ext
  intro v
  rw [get?_eq_some_iff, Option.filter_eq_some_iff, get?_eq_some_iff]
  exact List.mem_filter

omit [DecidableEq κ] in
theorem filter_eq_self {p : κ → ν → Bool} (h : ∀ k v, (k, v) ∈ m.entries → p k v = true) :
    m.filter p = m := by
  obtain ⟨entries, nodup⟩ := m
  have same : (entries.filter fun e => p e.1 e.2) = entries := List.filter_eq_self.2 fun e he =>
    h e.1 e.2 he
  unfold filter
  simp only [same]

/-- The keys are what can be looked up. -/
theorem mem_keys_iff : k ∈ m.keys ↔ ∃ v, m.get? k = some v := by
  show k ∈ m.entries.map Prod.fst ↔ _
  rw [List.mem_map]
  constructor
  · intro h
    obtain ⟨e, he, rfl⟩ := h
    exact ⟨e.2, get?_eq_some_iff.2 he⟩
  · intro h
    obtain ⟨v, hv⟩ := h
    exact ⟨(k, v), get?_eq_some_iff.1 hv, rfl⟩

theorem exists_mem_of_mem_keys_ofList (h : k ∈ (ofList l).keys) : ∃ v, (k, v) ∈ l := by
  obtain ⟨v, hv⟩ := mem_keys_iff.1 h
  exact ⟨v, mem_of_get?_ofList hv⟩

/-! ### Lists with different keys -/

theorem putIn_of_not_mem (new : k ∉ l.map Prod.fst) : putIn k v l = l ++ [(k, v)] := by
  induction l with
  | nil => rfl
  | cons e l ih =>
    rw [List.map_cons, List.mem_cons, not_or] at new
    rw [putIn, if_neg new.1, ih new.2, List.cons_append]

theorem entries_insertAll (nodup : ((m.entries ++ l).map Prod.fst).Nodup) :
    (m.insertAll l).entries = m.entries ++ l := by
  induction l generalizing m with
  | nil => exact (List.append_nil _).symm
  | cons e l ih =>
    have new : e.1 ∉ m.entries.map Prod.fst := by
      rw [List.map_append, List.map_cons] at nodup
      intro mem
      exact (List.nodup_append.1 nodup).2.2 e.1 mem e.1 List.mem_cons_self rfl
    have first : (m.insert e.1 e.2).entries = m.entries ++ [e] := putIn_of_not_mem new
    rw [insertAll_cons, ih]
    · rw [first, List.append_assoc, List.singleton_append]
    · rwa [first, List.append_assoc, List.singleton_append]

/-- A list with different keys is kept as it stands. -/
theorem entries_ofList (nodup : (l.map Prod.fst).Nodup) : (ofList l).entries = l :=
  entries_insertAll nodup

omit [DecidableEq κ] in
/-- So are the entries of a map under new keys, if these tell the old ones apart. -/
theorem entries_ofList_map {κ' ν' : Type} [DecidableEq κ'] {g : κ → κ'} {h : ν → ν'}
    (injective : ∀ a b, a ∈ m.keys → b ∈ m.keys → g a = g b → a = b) :
    (ofList (m.entries.map fun e => (g e.1, h e.2))).entries =
      m.entries.map fun e => (g e.1, h e.2) := by
  apply entries_ofList
  have keys : (m.entries.map fun e => (g e.1, h e.2)).map Prod.fst = m.keys.map g := by
    show _ = (m.entries.map Prod.fst).map g
    rw [List.map_map, List.map_map]
    rfl
  show ((m.entries.map fun e => (g e.1, h e.2)).map Prod.fst).Pairwise (· ≠ ·)
  rw [keys, List.pairwise_map]
  refine List.Pairwise.imp_of_mem ?_ m.keys_nodup
  intro a b ha hb different same
  exact different (injective a b ha hb same)

end OrderedMap

end PatternAutomata
