import Mathlib.Data.List.Infix
import PatternAutomata.Label

/-!
# The parentheses of a text

Which parentheses of a text have no partner, said without any parsing: by counting the parentheses
before or after a position.

* `Misclosed`, `Unclosed` — the parentheses that cannot stand where they stand;
* `misclosed_append_iff`, `misclosed_length_iff` — what comes later does not change what is wrong
  with a `)`;
* `Balanced` — texts in which all parentheses have partners, and `Balanced.not_unclosed`;
* `Nested` — texts with open groups; `Nested.append`, `Nested.opening`, `Nested.closing` — how the
  next character changes them;
* `Nested.unclosed` — the latest open group is the last that is never closed.
-/

namespace PatternAutomata

variable {p u v w : Text} {n m : Nat} {c : Symbol} {groups : List Int} {start : Int}

/-! ### Parentheses without a partner -/

/-- The text closes no groups but those that it opens. -/
def ClosesOwn (u : Text) : Prop := ∀ v ∈ u.inits, v.count ')' ≤ v.count '('

instance (u : Text) : Decidable (ClosesOwn u) :=
  inferInstanceAs (Decidable (∀ v ∈ u.inits, v.count ')' ≤ v.count '('))

/-- The character before the position is a `(`. -/
def FollowsOpening (p : Text) (n : Nat) : Prop := 0 < n ∧ p[n - 1]? = some '('

instance (p : Text) (n : Nat) : Decidable (FollowsOpening p n) :=
  inferInstanceAs (Decidable (_ ∧ _))

/-- At the position stands a `)` that closes an empty group, or that follows as many `)` as `(`. -/
def Misclosed (p : Text) (n : Nat) : Prop :=
  p[n]? = some ')' ∧ (FollowsOpening p n ∨ (p.take n).count ')' = (p.take n).count '(')

instance (p : Text) (n : Nat) : Decidable (Misclosed p n) := inferInstanceAs (Decidable (_ ∧ _))

/-- At the position stands a `(` that is never closed: the text after it closes no groups but those
that it opens. -/
def Unclosed (p : Text) (n : Nat) : Prop := p[n]? = some '(' ∧ ClosesOwn (p.drop (n + 1))

instance (p : Text) (n : Nat) : Decidable (Unclosed p n) := inferInstanceAs (Decidable (_ ∧ _))

theorem Misclosed.lt_length (h : Misclosed p n) : n < p.length :=
  (List.getElem?_eq_some_iff.1 h.1).1

theorem Unclosed.lt_length (h : Unclosed p n) : n < p.length :=
  (List.getElem?_eq_some_iff.1 h.1).1

theorem followsOpening_append_iff (h : n < u.length) :
    FollowsOpening (u ++ v) n ↔ FollowsOpening u n := by
  unfold FollowsOpening
  rw [List.getElem?_append_left (Nat.lt_of_le_of_lt (Nat.sub_le n 1) h)]

/-- What is wrong with a `)` depends on the text before it alone. -/
theorem misclosed_append_iff (h : n < u.length) : Misclosed (u ++ v) n ↔ Misclosed u n := by
  unfold Misclosed
  rw [List.getElem?_append_left h, followsOpening_append_iff h,
    List.take_append_of_le_length (Nat.le_of_lt h)]

theorem followsOpening_length_iff : FollowsOpening (u ++ v) u.length ↔ u.getLast? = some '(' := by
  rcases List.eq_nil_or_concat u with rfl | ⟨w, c, rfl⟩
  · simp [FollowsOpening]
  · simp [FollowsOpening]

theorem misclosed_length_iff :
    Misclosed (u ++ ')' :: v) u.length ↔
      u.getLast? = some '(' ∨ u.count ')' = u.count '(' := by
  unfold Misclosed
  rw [followsOpening_length_iff, List.getElem?_append_right (Nat.le_refl _), Nat.sub_self,
    List.take_left]
  exact and_iff_right rfl

theorem not_misclosed_length (h : c ≠ ')') : ¬ Misclosed (u ++ c :: v) u.length := by
  intro closed
  have same := closed.1
  rw [List.getElem?_append_right (Nat.le_refl _), Nat.sub_self] at same
  exact h (Option.some.inj same)

/-! ### Texts in which all parentheses have partners -/

theorem ClosesOwn.count_le (h : ClosesOwn u) : u.count ')' ≤ u.count '(' :=
  h u ((List.mem_inits u u).2 (List.prefix_refl u))

theorem ClosesOwn.take (h : ClosesOwn u) (n : Nat) :
    (u.take n).count ')' ≤ (u.take n).count '(' :=
  h _ ((List.mem_inits _ u).2 (List.take_prefix n u))

/-- All parentheses of the text have partners in it. -/
structure Balanced (u : Text) : Prop where
  closesOwn : ClosesOwn u
  total : u.count ')' = u.count '('

theorem ClosesOwn.append (hu : Balanced u) (hv : ClosesOwn v) : ClosesOwn (u ++ v) := by
  intro w hw
  rw [List.mem_inits] at hw
  rcases List.prefix_or_prefix_of_prefix hw (List.prefix_append u v) with inside | ⟨x, rfl⟩
  · exact hu.closesOwn w ((List.mem_inits w u).2 inside)
  · have rest := hv x ((List.mem_inits x v).2 ((List.prefix_append_right_inj u).1 hw))
    rw [List.count_append, List.count_append, hu.total]
    exact Nat.add_le_add_left rest _

theorem balanced_nil : Balanced [] := ⟨by decide, rfl⟩

theorem Balanced.append (hu : Balanced u) (hv : Balanced v) : Balanced (u ++ v) where
  closesOwn := .append hu hv.closesOwn
  total := by rw [List.count_append, List.count_append, hu.total, hv.total]

theorem balanced_singleton (opens : c ≠ '(') (closes : c ≠ ')') : Balanced [c] where
  closesOwn := by
    intro v hv
    have letters : v ⊆ [c] := ((List.mem_inits v [c]).1 hv).subset
    have none : v.count ')' = 0 := by
      rw [List.count_eq_zero]
      intro mem
      exact closes (List.mem_singleton.1 (letters mem)).symm
    rw [none]
    exact Nat.zero_le _
  total := by
    rw [List.count_eq_zero.2 fun mem => closes (List.mem_singleton.1 mem).symm,
      List.count_eq_zero.2 fun mem => opens (List.mem_singleton.1 mem).symm]

/-- A group around a text in which all parentheses have partners. -/
theorem Balanced.group (h : Balanced u) : Balanced ('(' :: u ++ [')']) where
  closesOwn := by
    intro v hv
    rw [List.mem_inits, List.cons_append, List.prefix_cons_iff] at hv
    rcases hv with rfl | ⟨t, rfl, inside⟩
    · exact Nat.le_refl 0
    · have opened : ('(' :: t).count '(' = t.count '(' + 1 := List.count_cons_self
      have same : ('(' :: t).count ')' = t.count ')' := List.count_cons_of_ne (by decide)
      rw [opened, same]
      rcases List.prefix_concat_iff.1 inside with rfl | inside
      · rw [List.count_append, List.count_append, h.total]
        exact Nat.le_refl _
      · exact Nat.le_succ_of_le (h.closesOwn t ((List.mem_inits t u).2 inside))
  total := by
    have total := h.total
    simp
    omega

/-- Where all parentheses have partners, each `(` is closed. -/
theorem Balanced.not_unclosed (h : Balanced u) : ¬ Unclosed u n := by
  intro unclosed
  obtain ⟨found, after⟩ := unclosed
  have parts : u = u.take n ++ '(' :: u.drop (n + 1) := by
    obtain ⟨within, same⟩ := List.getElem?_eq_some_iff.1 found
    rw [← same, List.cons_getElem_drop_succ, List.take_append_drop]
  have before := h.closesOwn.take n
  have rest := after.count_le
  have total := h.total
  rw [parts, List.count_append, List.count_append, List.count_cons_self,
    List.count_cons_of_ne (by decide)] at total
  omega

/-! ### Texts with open groups -/

/-- The groups that start at these positions, the latest first, are open at the end of the text;
all other parentheses have partners. -/
inductive Nested : List Int → Text → Prop where
  | base {u : Text} : Balanced u → Nested [] u
  | group {groups : List Int} {v u : Text} :
      Nested groups v → Balanced u → Nested (v.length :: groups) (v ++ '(' :: u)

theorem Nested.append (h : Nested groups u) (hv : Balanced v) : Nested groups (u ++ v) := by
  cases h with
  | base hu => exact .base (hu.append hv)
  | group hw hu =>
    rw [List.append_assoc, List.cons_append]
    exact .group hw (hu.append hv)

theorem Nested.opening (h : Nested groups u) : Nested (u.length :: groups) (u ++ ['(']) :=
  .group h balanced_nil

/-- A `)` closes the latest open group. -/
theorem Nested.closing (h : Nested (start :: groups) u) : Nested groups (u ++ [')']) := by
  cases h with
  | group hv hu =>
    rw [List.append_assoc]
    exact hv.append hu.group

theorem Nested.count_eq (h : Nested groups u) : u.count ')' + groups.length = u.count '(' := by
  induction h with
  | base hu => exact hu.total
  | group _ hu ih =>
    have total := hu.total
    simp
    omega

/-- The latest open group is the last one that is never closed. -/
theorem Nested.unclosed (h : Nested (start :: groups) u) :
    ∃ n : Nat, (n : Int) = start ∧ Unclosed u n ∧ ∀ m, n < m → ¬ Unclosed u m := by
  cases h with
  | @group _ v w hv hw =>
    have length : (v ++ ['(']).length = v.length + 1 := List.length_append
    have assoc : v ++ '(' :: w = (v ++ ['(']) ++ w := List.append_cons v '(' w
    refine ⟨v.length, rfl, ⟨by simp, ?_⟩, ?_⟩
    · rw [assoc, ← length, List.drop_left]
      exact hw.closesOwn
    · intro m later unclosed
      -- what is unclosed behind the group would be unclosed in its balanced contents
      obtain ⟨k, rfl⟩ := Nat.exists_eq_add_of_le (Nat.succ_le_of_lt later)
      obtain ⟨found, after⟩ := unclosed
      rw [Nat.succ_eq_add_one, assoc, ← length] at found after
      rw [List.getElem?_append_right (Nat.le_add_right _ _), Nat.add_sub_cancel_left] at found
      rw [Nat.add_assoc, List.drop_length_add_append] at after
      exact hw.not_unclosed ⟨found, after⟩

end PatternAutomata
