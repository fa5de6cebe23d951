/-!
# Ordered maps

A finite map that remembers the order in which its keys first arrived.  A key that arrives again
keeps its place and takes the new value.

* `get?`, `insert`, `ofList`, `merge`, `filter` — the operations;
* `lookIn_eq_lookup` — a key is looked up as by `List.lookup`, compiled for the type of the keys;
* `get?_insert` — looking up after one insertion;
* `get?_merge` — looking up in a merged map: the later map wins.
-/

namespace PatternAutomata

/-- A finite map as its entries, first arrival first, each key once. -/
structure OrderedMap (κ ν : Type) where
  entries : List (κ × ν)
  keys_nodup : (entries.map Prod.fst).Nodup
  deriving DecidableEq

namespace OrderedMap

variable {κ ν : Type}

instance : EmptyCollection (OrderedMap κ ν) where
  emptyCollection := ⟨[], List.nodup_nil⟩

instance : Inhabited (OrderedMap κ ν) where
  default := ∅

/-- The keys, first arrival first. -/
def keys (m : OrderedMap κ ν) : List κ := m.entries.map Prod.fst

/-- The number of entries. -/
def size (m : OrderedMap κ ν) : Nat := m.entries.length

/-- The entries that satisfy `p`, in their order. -/
def filter (p : κ → ν → Bool) (m : OrderedMap κ ν) : OrderedMap κ ν :=
  ⟨m.entries.filter fun e => p e.1 e.2,
    m.keys_nodup.sublist (List.filter_sublist.map Prod.fst)⟩

variable [DecidableEq κ]

/-- The value of the first entry with the key `k`. -/
@[specialize] def lookIn (k : κ) : List (κ × ν) → Option ν
  | [] => none
  | (k', v) :: rest => if k = k' then some v else lookIn k rest

theorem lookIn_eq_lookup (k : κ) (l : List (κ × ν)) : lookIn k l = l.lookup k := by
  induction l with
  | nil => rfl
  | cons e l ih =>
    obtain ⟨k', v⟩ := e
    by_cases h : k = k'
    · subst h
      simp [lookIn]
    · rw [lookIn, if_neg h, List.lookup_cons, beq_false_of_ne h, ih]

/-- The value of the key `k`, if there is one. -/
@[inline] def get? (m : OrderedMap κ ν) (k : κ) : Option ν := lookIn k m.entries

/-- Gives the key `k` the value `v`, in its place or else at the end. -/
@[specialize] def putIn (k : κ) (v : ν) : List (κ × ν) → List (κ × ν)
  | [] => [(k, v)]
  | (k', v') :: rest => if k = k' then (k, v) :: rest else (k', v') :: putIn k v rest

theorem mem_keys_putIn {k x : κ} {v : ν} {l : List (κ × ν)} :
    x ∈ (putIn k v l).map Prod.fst ↔ x = k ∨ x ∈ l.map Prod.fst := by
  induction l with
  | nil => simp [putIn]
  | cons e l ih =>
    obtain ⟨k', v'⟩ := e
    simp only [putIn]
    split
    · rename_i h
      simp [h]
    · simp only [List.map_cons, List.mem_cons, ih]
      exact or_left_comm

theorem nodup_putIn {k : κ} {v : ν} {l : List (κ × ν)} (h : (l.map Prod.fst).Nodup) :
    ((putIn k v l).map Prod.fst).Nodup := by
  induction l with
  | nil => simp [putIn]
  | cons e l ih =>
    obtain ⟨k', v'⟩ := e
    obtain ⟨hk, hl⟩ := List.nodup_cons.1 h
    simp only [putIn]
    split
    · rename_i heq
      subst heq
      exact h
    · rename_i hne
      refine List.nodup_cons.2 ⟨fun hmem => ?_, ih hl⟩
      rcases mem_keys_putIn.1 hmem with heq | hmem
      · exact hne heq.symm
      · exact hk hmem

/-- Gives the key `k` the value `v`: a known key keeps its place, a new one goes to the end. -/
@[inline] def insert (m : OrderedMap κ ν) (k : κ) (v : ν) : OrderedMap κ ν :=
  ⟨putIn k v m.entries, nodup_putIn m.keys_nodup⟩

theorem mem_keys_insert {m : OrderedMap κ ν} {k x : κ} {v : ν} :
    x ∈ (m.insert k v).keys ↔ x = k ∨ x ∈ m.keys := mem_keys_putIn

/-- Inserts the entries of a list one after the other. -/
@[specialize] def insertAll (m : OrderedMap κ ν) (l : List (κ × ν)) : OrderedMap κ ν :=
  l.foldl (fun m e => m.insert e.1 e.2) m

/-- The map of a list of entries; the last value of a repeated key counts. -/
def ofList (l : List (κ × ν)) : OrderedMap κ ν := insertAll ∅ l

/-- The entries of `m` and then those of `n`, whose values win. -/
def merge (m n : OrderedMap κ ν) : OrderedMap κ ν := m.insertAll n.entries

/-! ### Looking up -/

@[simp] theorem get?_empty (k : κ) : (∅ : OrderedMap κ ν).get? k = none := rfl

theorem lookIn_putIn {k x : κ} {v : ν} {l : List (κ × ν)} :
    lookIn x (putIn k v l) = if x = k then some v else lookIn x l := by
  induction l with
  | nil => simp [putIn, lookIn]
  | cons e l ih =>
    obtain ⟨k', v'⟩ := e
    simp only [putIn]
    split
    · rename_i h
      subst h
      by_cases hx : x = k <;> simp [lookIn, hx]
    · rename_i h
      by_cases hx : x = k'
      · subst hx
        simp [lookIn, Ne.symm h]
      · simp [lookIn, hx, ih]

theorem get?_insert {m : OrderedMap κ ν} {k x : κ} {v : ν} :
    (m.insert k v).get? x = if x = k then some v else m.get? x :=
  lookIn_putIn

theorem lookIn_eq_some_iff {l : List (κ × ν)} (h : (l.map Prod.fst).Nodup) {k : κ} {v : ν} :
    lookIn k l = some v ↔ (k, v) ∈ l := by
  induction l with
  | nil => simp [lookIn]
  | cons e l ih =>
    obtain ⟨k', v'⟩ := e
    obtain ⟨hk, hl⟩ := List.nodup_cons.1 h
    by_cases hx : k = k'
    · subst hx
      have absent : (k, v) ∉ l := fun hm => hk (List.mem_map.2 ⟨_, hm, rfl⟩)
      simp [lookIn, absent, eq_comm]
    · simp [lookIn, hx, ih hl]

/-- A key has the value of its one entry. -/
theorem get?_eq_some_iff {m : OrderedMap κ ν} {k : κ} {v : ν} :
    m.get? k = some v ↔ (k, v) ∈ m.entries :=
  lookIn_eq_some_iff m.keys_nodup

theorem get?_insertAll {m : OrderedMap κ ν} {l : List (κ × ν)} (h : (l.map Prod.fst).Nodup)
    {x : κ} : (m.insertAll l).get? x = (lookIn x l).or (m.get? x) := by
  induction l generalizing m with
  | nil => rfl
  | cons e l ih =>
    obtain ⟨k, v⟩ := e
    obtain ⟨hk, hl⟩ := List.nodup_cons.1 h
    rw [insertAll, List.foldl_cons, ← insertAll, ih hl, get?_insert]
    by_cases hx : x = k
    · subst hx
      cases hlook : lookIn x l with
      | none => simp [lookIn]
      | some w =>
        exact absurd (List.mem_map.2 ⟨_, (lookIn_eq_some_iff hl).1 hlook, rfl⟩) hk
    · simp [lookIn, hx]

/-- In a merged map the later map is asked first. -/
theorem get?_merge {m n : OrderedMap κ ν} {x : κ} :
    (m.merge n).get? x = (n.get? x).or (m.get? x) :=
  get?_insertAll n.keys_nodup

/-- Every value of a map made from a list stands in that list. -/
theorem mem_of_get?_ofList {l : List (κ × ν)} {k : κ} {v : ν} (h : (ofList l).get? k = some v) :
    (k, v) ∈ l := by
  have general : ∀ (l : List (κ × ν)) (m : OrderedMap κ ν),
      (m.insertAll l).get? k = some v → (k, v) ∈ l ∨ m.get? k = some v := by
    intro l
    induction l with
    | nil => exact fun m hm => Or.inr hm
    | cons e l ih =>
      intro m hm
      rcases ih (m.insert e.1 e.2) hm with hl | hm'
      · exact Or.inl (List.mem_cons_of_mem _ hl)
      · rw [get?_insert] at hm'
        split at hm'
        · rename_i hk
          cases hm'
          subst hk
          exact Or.inl List.mem_cons_self
        · exact Or.inr hm'
  rcases general l ∅ h with hl | hm
  · exact hl
  · simp at hm

end OrderedMap

end PatternAutomata
