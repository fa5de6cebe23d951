import PatternAutomata.Exploration
import PatternAutomata.Label
import PatternAutomata.Proofs.Data.Distinct

/-!
# Breadth-first order

Nodes that are reached by reading symbols are discovered in the order of the texts that lead to
them, the shorter texts first.  So the order of discovery depends on nothing but the symbols and on
which texts lead to the same node.

* `exploreFrom_eq_append` — the nodes that are discovered first are listed first;
* `explore_eq_distinct` — the discovered nodes are the first arrivals among the given ones and the
  successors of the discovered ones;
* `textsUpTo` — the texts of bounded length, shorter ones first;
* `explore_eq_distinct_texts` — the discovered nodes are the first arrivals among the nodes that
  these texts lead to.
-/

namespace PatternAutomata

variable {α : Type} [DecidableEq α]

/-! ### The discovered nodes and their successors -/

/-- What is discovered later is listed later. -/
theorem exploreFrom_eq_append (next : α → List α) (fuel : Nat) (done todo : List α) :
    ∃ rest, exploreFrom next fuel done todo = done ++ todo ++ rest := by
  induction fuel generalizing done todo with
  | zero => exact ⟨[], (List.append_nil _).symm⟩
  | succ fuel ih =>
    cases todo with
    | nil => exact ⟨[], by simp [exploreFrom]⟩
    | cons a todo =>
      obtain ⟨rest, eq⟩ := ih (done ++ [a]) (todo ++ newcomers (done ++ a :: todo) (next a))
      refine ⟨newcomers (done ++ a :: todo) (next a) ++ rest, ?_⟩
      rw [exploreFrom, eq]
      simp

/-- What is done and to do is always the list of first arrivals so far; with enough fuel nothing is
left to do in the end. -/
theorem exploreFrom_eq_distinct {next : α → List α} {fuel : Nat} {done todo given nodes : List α}
    (order : done ++ todo = distinct (given ++ done.flatMap next))
    (within : ∀ a ∈ done ++ todo, a ∈ nodes) (inside : ∀ a ∈ nodes, ∀ b ∈ next a, b ∈ nodes)
    (bound : nodes.length ≤ fuel + done.length) :
    exploreFrom next fuel done todo
      = distinct (given ++ (exploreFrom next fuel done todo).flatMap next) := by
  induction fuel generalizing done todo with
  | zero =>
    have nodup : (done ++ todo).Nodup := by
      rw [order]
      exact nodup_distinct _
    have size := nodup.length_le_of_subset within
    have none : todo = [] := by
      apply List.eq_nil_of_length_eq_zero
      rw [List.length_append] at size
      omega
    subst none
    rw [List.append_nil] at order
    simpa [exploreFrom] using order
  | succ fuel ih =>
    cases todo with
    | nil =>
      rw [List.append_nil] at order
      simpa [exploreFrom] using order
    | cons x todo =>
      have shape : done ++ [x] ++ (todo ++ newcomers (done ++ x :: todo) (next x))
          = (done ++ x :: todo) ++ newcomers (done ++ x :: todo) (next x) := by
        simp
      rw [exploreFrom]
      apply ih
      · rw [shape, List.flatMap_append, ← List.append_assoc, distinct_append, ← order]
        congr 1
        rw [List.flatMap_singleton]
        apply newcomers_congr
        intro a _
        rw [order, mem_distinct]
      · rw [shape]
        intro a ha
        rcases List.mem_append.1 ha with ha | ha
        · exact within a ha
        · exact inside x (within x (by simp)) a (mem_newcomers.1 ha).1
      · rw [List.length_append, List.length_singleton]
        omega

theorem explore_eq_distinct {next : α → List α} {fuel : Nat} {given nodes : List α}
    (within : ∀ a ∈ given, a ∈ nodes) (inside : ∀ a ∈ nodes, ∀ b ∈ next a, b ∈ nodes)
    (bound : nodes.length ≤ fuel) :
    explore next fuel given = distinct (given ++ (explore next fuel given).flatMap next) :=
  exploreFrom_eq_distinct (by simp) (fun a ha => within a (by simpa using ha)) inside
    (by simpa using bound)

/-! ### Texts in order of length -/

/-- The texts of at most `n` of the given symbols, shorter ones first. -/
def textsUpTo (symbols : List Symbol) : (n : Nat) → List Text
  | 0 => [[]]
  | n + 1 => [] :: (textsUpTo symbols n).flatMap fun w => symbols.map fun c => w ++ [c]

variable {symbols : List Symbol} {δ : α → Symbol → α} {start : α}

theorem nil_mem_textsUpTo (n : Nat) : [] ∈ textsUpTo symbols n := by
  cases n with
  | zero => exact List.mem_cons_self
  | succ n => exact List.mem_cons_self

theorem mem_textsUpTo {n : Nat} {w : Text} (symbol_mem : ∀ c ∈ w, c ∈ symbols)
    (bound : w.length ≤ n) : w ∈ textsUpTo symbols n := by
  induction n generalizing w with
  | zero =>
    have empty : w = [] := List.eq_nil_of_length_eq_zero (by omega)
    rw [empty]
    exact nil_mem_textsUpTo 0
  | succ n ih =>
    rcases List.eq_nil_or_concat w with rfl | ⟨v, c, rfl⟩
    · exact nil_mem_textsUpTo (n + 1)
    · rw [List.concat_eq_append] at symbol_mem bound ⊢
      rw [List.length_append, List.length_singleton] at bound
      have hv : v ∈ textsUpTo symbols n :=
        ih (fun a ha => symbol_mem a (List.mem_append_left _ ha)) (by omega)
      have hc : c ∈ symbols := symbol_mem c (by simp)
      apply List.mem_cons_of_mem
      exact List.mem_flatMap.2 ⟨v, hv, List.mem_map.2 ⟨c, hc, rfl⟩⟩

theorem symbol_mem_of_mem_textsUpTo {n : Nat} {w : Text} (h : w ∈ textsUpTo symbols n) :
    ∀ c ∈ w, c ∈ symbols := by
  induction n generalizing w with
  | zero =>
    rw [textsUpTo, List.mem_singleton] at h
    simp [h]
  | succ n ih =>
    rcases List.mem_cons.1 h with rfl | h
    · exact fun c hc => absurd hc List.not_mem_nil
    · obtain ⟨v, hv, hw⟩ := List.mem_flatMap.1 h
      obtain ⟨d, hd, rfl⟩ := List.mem_map.1 hw
      intro c hc
      rcases List.mem_append.1 hc with hc | hc
      · exact ih hv c hc
      · rw [List.mem_singleton.1 hc]
        exact hd

/-! ### Nodes in the order of the texts -/

omit [DecidableEq α] in
/-- Functions that agree on the texts over the symbols have the same values along them. -/
theorem map_textsUpTo_congr {f g : Text → α} {n : Nat}
    (same : ∀ w, (∀ c ∈ w, c ∈ symbols) → f w = g w) :
    (textsUpTo symbols n).map f = (textsUpTo symbols n).map g :=
  List.map_congr_left fun w hw => same w (symbol_mem_of_mem_textsUpTo hw)

omit [DecidableEq α] in
/-- The nodes that the texts lead to, and the successors of these, belong to the next bound. -/
theorem map_textsUpTo_succ (n : Nat) :
    (textsUpTo symbols (n + 1)).map (List.foldl δ start) =
      [start] ++ ((textsUpTo symbols n).map (List.foldl δ start)).flatMap
        fun a => symbols.map (δ a) := by
  rw [textsUpTo, List.map_cons, List.map_flatMap, List.flatMap_map]
  simp [List.map_map, Function.comp_def, List.foldl_append]

/-- If a list consists of the first arrivals among the start and the successors of its members, the
texts of bounded length give the first arrivals of it. -/
theorem exists_eq_distinct_append {l : List α}
    (fixed : l = distinct ([start] ++ l.flatMap fun a => symbols.map (δ a))) (n : Nat) :
    ∃ rest : List α, (∀ a ∈ rest, a ∈ l) ∧
      l = distinct ((textsUpTo symbols n).map (List.foldl δ start) ++ rest) := by
  have closed : ∀ a ∈ l, ∀ b ∈ symbols.map (δ a), b ∈ l := by
    intro a ha b hb
    rw [fixed, mem_distinct]
    exact List.mem_append_right _ (List.mem_flatMap.2 ⟨a, ha, hb⟩)
  induction n with
  | zero =>
    refine ⟨l.flatMap fun a => symbols.map (δ a), ?_, fixed⟩
    intro b hb
    obtain ⟨a, ha, hab⟩ := List.mem_flatMap.1 hb
    exact closed a ha b hab
  | succ n ih =>
    obtain ⟨rest, hrest, eq⟩ := ih
    refine ⟨rest.flatMap fun a => symbols.map (δ a), ?_, ?_⟩
    · intro b hb
      obtain ⟨a, ha, hab⟩ := List.mem_flatMap.1 hb
      exact closed a (hrest a ha) b hab
    · rw [map_textsUpTo_succ, List.append_assoc, ← List.flatMap_append,
        ← distinct_append_flatMap_distinct, ← eq]
      exact fixed

omit [DecidableEq α] in
theorem exists_length_bound {l : List α} {P : Text → α → Prop} (h : ∀ a ∈ l, ∃ w, P w a) :
    ∃ n, ∀ a ∈ l, ∃ w : Text, w.length ≤ n ∧ P w a := by
  induction l with
  | nil => exact ⟨0, fun a ha => absurd ha List.not_mem_nil⟩
  | cons b l ih =>
    obtain ⟨n, hn⟩ := ih fun a ha => h a (List.mem_cons_of_mem b ha)
    obtain ⟨v, hv⟩ := h b List.mem_cons_self
    refine ⟨max v.length n, ?_⟩
    intro a ha
    rcases List.mem_cons.1 ha with rfl | ha
    · exact ⟨v, by omega, hv⟩
    · obtain ⟨w, hw, hwa⟩ := hn a ha
      exact ⟨w, by omega, hwa⟩

/-- Nodes are discovered in the order of the texts that lead to them. -/
theorem explore_eq_distinct_texts {fuel : Nat} {nodes : List α} (within : start ∈ nodes)
    (inside : ∀ a ∈ nodes, ∀ c ∈ symbols, δ a c ∈ nodes) (bound : nodes.length ≤ fuel) :
    ∃ n, ∀ m, n ≤ m →
      explore (fun a => symbols.map (δ a)) fuel [start]
        = distinct ((textsUpTo symbols m).map (List.foldl δ start)) := by
  generalize hl : explore (fun a => symbols.map (δ a)) fuel [start] = l
  have fixed : l = distinct ([start] ++ l.flatMap fun a => symbols.map (δ a)) := by
    rw [← hl]
    refine explore_eq_distinct (by simpa using within) ?_ bound
    intro a ha b hb
    obtain ⟨c, hc, rfl⟩ := List.mem_map.1 hb
    exact inside a ha c hc
  have reached : ∀ a ∈ l, ∃ w, (∀ c ∈ w, c ∈ symbols) ∧ List.foldl δ start w = a := by
    rw [← hl]
    apply explore_induction
    · intro a ha
      rw [List.mem_singleton.1 ha]
      exact ⟨[], by simp, rfl⟩
    · intro a ha b hb
      obtain ⟨w, hw, rfl⟩ := ha
      obtain ⟨c, hc, rfl⟩ := List.mem_map.1 hb
      refine ⟨w ++ [c], ?_, by rw [List.foldl_append]; rfl⟩
      exact List.forall_mem_append.2 ⟨hw, by simpa using hc⟩
  obtain ⟨n, hn⟩ := exists_length_bound reached
  refine ⟨n, ?_⟩
  intro m hm
  obtain ⟨rest, hrest, eq⟩ := exists_eq_distinct_append fixed m
  rw [distinct_append_of_subset] at eq
  · exact eq
  · intro a ha
    obtain ⟨w, hlen, hw, rfl⟩ := hn a (hrest a ha)
    exact List.mem_map.2 ⟨w, mem_textsUpTo hw (by omega), rfl⟩

end PatternAutomata
