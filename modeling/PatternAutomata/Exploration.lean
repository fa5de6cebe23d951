import PatternAutomata.Distinct

/-!
# Exploration

Everything that can be reached from some nodes, breadth first.  The nodes are listed in the order in
which they are discovered: the given ones, then the new successors of the first, then the new
successors of the second, and so on.

* `explore` — the discovered nodes; its fuel bounds how many of them are asked for successors;
* `nodup_explore` — no node is listed twice;
* `mem_explore_of_mem` — the given nodes are listed;
* `explore_induction` — a property of the given nodes that successors inherit holds of all;
* `explore_closed` — with fuel for as many nodes as there are, every successor of a listed node is
  listed.
-/

namespace PatternAutomata

variable {α : Type} [DecidableEq α]

/-- The nodes discovered from `todo` when those of `done` have been asked for their successors. -/
@[specialize] def exploreFrom (next : α → List α) : (fuel : Nat) → (done todo : List α) → List α
  | 0, done, todo => done ++ todo
  | _ + 1, done, [] => done
  | fuel + 1, done, a :: todo =>
    exploreFrom next fuel (done ++ [a]) (todo ++ newcomers (done ++ a :: todo) (next a))

/-- The nodes discovered from the given ones, of which at most `fuel` are asked for their
successors. -/
def explore (next : α → List α) (fuel : Nat) (nodes : List α) : List α :=
  exploreFrom next fuel [] (distinct nodes)

/-! ### Discovered nodes -/

theorem nodup_exploreFrom {next : α → List α} {fuel : Nat} {done todo : List α}
    (h : (done ++ todo).Nodup) : (exploreFrom next fuel done todo).Nodup := by
  induction fuel generalizing done todo with
  | zero => exact h
  | succ fuel ih =>
    cases todo with
    | nil => simpa [exploreFrom] using h
    | cons a todo =>
      refine ih ?_
      rw [List.append_assoc, List.singleton_append, ← List.cons_append, ← List.append_assoc]
      refine List.nodup_append.2 ⟨h, nodup_newcomers _ _, fun x hx y hy hxy => ?_⟩
      subst hxy
      exact (mem_newcomers.1 hy).2 hx

/-- No node is listed twice. -/
theorem nodup_explore (next : α → List α) (fuel : Nat) (nodes : List α) :
    (explore next fuel nodes).Nodup :=
  nodup_exploreFrom (by simpa using nodup_distinct nodes)

theorem mem_exploreFrom_of_mem {next : α → List α} {fuel : Nat} {done todo : List α} {a : α}
    (h : a ∈ done ++ todo) : a ∈ exploreFrom next fuel done todo := by
  induction fuel generalizing done todo with
  | zero => exact h
  | succ fuel ih =>
    cases todo with
    | nil => simpa [exploreFrom] using h
    | cons b todo =>
      refine ih ?_
      rw [List.append_assoc, List.singleton_append, ← List.cons_append, ← List.append_assoc]
      exact List.mem_append_left _ h

/-- The given nodes are listed. -/
theorem mem_explore_of_mem {next : α → List α} {fuel : Nat} {nodes : List α} {a : α}
    (h : a ∈ nodes) : a ∈ explore next fuel nodes :=
  mem_exploreFrom_of_mem (by simpa using h)

theorem exploreFrom_induction {next : α → List α} {P : α → Prop}
    (step : ∀ a, P a → ∀ b ∈ next a, P b) {fuel : Nat} {done todo : List α}
    (h : ∀ a ∈ done ++ todo, P a) : ∀ a ∈ exploreFrom next fuel done todo, P a := by
  induction fuel generalizing done todo with
  | zero => exact h
  | succ fuel ih =>
    cases todo with
    | nil => simpa [exploreFrom] using h
    | cons b todo =>
      refine ih fun a ha => ?_
      rw [List.append_assoc, List.singleton_append, ← List.cons_append, ← List.append_assoc] at ha
      rcases List.mem_append.1 ha with ha | ha
      · exact h a ha
      · exact step b (h b (by simp)) a (mem_newcomers.1 ha).1

/-- A property of the given nodes that successors inherit holds of every discovered node. -/
theorem explore_induction {next : α → List α} {P : α → Prop} {fuel : Nat} {nodes : List α}
    (start : ∀ a ∈ nodes, P a) (step : ∀ a, P a → ∀ b ∈ next a, P b) :
    ∀ a ∈ explore next fuel nodes, P a :=
  exploreFrom_induction step fun a ha => start a (by simpa using ha)

/-! ### Enough fuel -/

theorem exploreFrom_closed {next : α → List α} {fuel : Nat} {done todo nodes : List α}
    (nodup : (done ++ todo).Nodup) (within : ∀ a ∈ done ++ todo, a ∈ nodes)
    (inside : ∀ a ∈ nodes, ∀ b ∈ next a, b ∈ nodes) (bound : nodes.length ≤ fuel + done.length)
    (asked : ∀ a ∈ done, ∀ b ∈ next a, b ∈ done ++ todo) :
    ∀ a ∈ exploreFrom next fuel done todo, ∀ b ∈ next a, b ∈ exploreFrom next fuel done todo := by
  induction fuel generalizing done todo with
  | zero =>
    have size := nodup.length_le_of_subset within
    have none : todo = [] := by
      apply List.eq_nil_of_length_eq_zero
      rw [List.length_append] at size
      omega
    subst none
    simpa [exploreFrom] using asked
  | succ fuel ih =>
    cases todo with
    | nil => simpa [exploreFrom] using asked
    | cons x todo =>
      have shape : done ++ [x] ++ (todo ++ newcomers (done ++ x :: todo) (next x))
          = (done ++ x :: todo) ++ newcomers (done ++ x :: todo) (next x) := by
        simp
      have found : ∀ b, b ∈ next x →
          b ∈ (done ++ x :: todo) ++ newcomers (done ++ x :: todo) (next x) := fun b hb => by
        by_cases known : b ∈ done ++ x :: todo
        · exact List.mem_append_left _ known
        · exact List.mem_append_right _ (mem_newcomers.2 ⟨hb, known⟩)
      refine ih ?_ ?_ ?_ ?_
      · rw [shape]
        refine List.nodup_append.2 ⟨nodup, nodup_newcomers _ _, fun a ha b hb hab => ?_⟩
        subst hab
        exact (mem_newcomers.1 hb).2 ha
      · rw [shape]
        intro a ha
        rcases List.mem_append.1 ha with ha | ha
        · exact within a ha
        · exact inside x (within x (by simp)) a (mem_newcomers.1 ha).1
      · rw [List.length_append, List.length_singleton]
        omega
      · rw [shape]
        intro a ha b hb
        rcases List.mem_append.1 ha with ha | ha
        · exact List.mem_append_left _ (asked a ha b hb)
        · cases List.mem_singleton.1 ha
          exact found b hb

/-- With fuel for all nodes of a list that holds the given ones and every successor of its members,
every successor of a listed node is listed. -/
theorem explore_closed {next : α → List α} {fuel : Nat} {given nodes : List α}
    (within : ∀ a ∈ given, a ∈ nodes) (inside : ∀ a ∈ nodes, ∀ b ∈ next a, b ∈ nodes)
    (bound : nodes.length ≤ fuel) :
    ∀ a ∈ explore next fuel given, ∀ b ∈ next a, b ∈ explore next fuel given :=
  exploreFrom_closed (by simpa using nodup_distinct given)
    (fun a ha => within a (by simpa using ha)) inside (by simpa using bound) (by simp)

end PatternAutomata
