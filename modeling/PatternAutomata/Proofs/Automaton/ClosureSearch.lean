import Mathlib.Algebra.Order.BigOperators.Group.List
import Mathlib.Algebra.Order.Ring.Nat
import PatternAutomata.Automaton.Path
import PatternAutomata.Proofs.Data.SortedSet

/-!
# Searching the closure with a stack

The closure of some states can be searched depth first: the state on top of a stack is taken off
and, if it is new, the ends of its ε transitions are put on the stack.  Neither the stack nor what
is put on it shrinks, since states that have been seen, or that wait already, are put there again.
But every ε transition is followed once only, which counts the steps, and all that ε leads to from
the seen states has been seen or waits.

* `Search`, `Search.Step`, `Search.Steps` — a search, one step of it, and several, with the ends of
  the transitions in any order;
* `silentDegree` — the number of ε transitions from some states;
* `Search.Sound` — what holds at every moment, and `Search.Sound.step`, `Search.Sound.of_steps`;
* `Search.exists_complete` — every search can be brought to its end;
* `searching_gives_the_closure` — where it ends, and after how many steps.
-/

namespace PatternAutomata

namespace Automaton

variable {A : Automaton} {given : List State} {q : State} {n : Nat}

/-- A search: the states that have been seen, and the stack, its top first. -/
structure Search where
  seen : SortedSet State
  stack : List State

namespace Search

/-- Nothing has been seen, and the given states wait in the given order. -/
def start (given : List State) : Search := ⟨∅, given⟩

/-- One step of a search.  A state that has been seen is passed over; the ends of the ε transitions
from a new one are put on the stack in any order. -/
inductive Step (A : Automaton) : Search → Search → Prop where
  | pass {seen : SortedSet State} {q : State} {rest : List State} :
      q ∈ seen → Step A ⟨seen, q :: rest⟩ ⟨seen, rest⟩
  | visit {seen : SortedSet State} {q : State} {rest ends : List State} :
      q ∉ seen → ends.Perm (A.ends q none).toList →
        Step A ⟨seen, q :: rest⟩ ⟨seen.insert q, ends ++ rest⟩

/-- As many steps one after the other. -/
inductive Steps (A : Automaton) : Nat → Search → Search → Prop where
  | none (s : Search) : Steps A 0 s s
  | next {n : Nat} {s t u : Search} : Steps A n s t → Step A t u → Steps A (n + 1) s u

end Search

/-- The number of ε transitions from the states of a set. -/
def silentDegree (A : Automaton) (S : SortedSet State) : Nat :=
  (S.toList.map fun q => (A.ends q none).size).sum

/-! ### Counting ε transitions -/

theorem silentDegree_insert {S : SortedSet State} (new : q ∉ S) :
    A.silentDegree (S.insert q) = A.silentDegree S + (A.ends q none).size := by
  have members : (S.insert q).toList.Perm (q :: S.toList) := by
    apply (List.perm_ext_iff_of_nodup (S.insert q).nodup_toList
      (List.nodup_cons.2 ⟨new, S.nodup_toList⟩)).2
    intro r
    rw [← SortedSet.mem_def, SortedSet.mem_insert, List.mem_cons, SortedSet.mem_def]
  unfold silentDegree
  rw [(members.map _).sum_eq, List.map_cons, List.sum_cons, Nat.add_comm]

theorem silentDegree_le_of_subset {S T : SortedSet State} (h : S ⊆ T) :
    A.silentDegree S ≤ A.silentDegree T := by
  obtain ⟨l, perm, sublist⟩ := List.subperm_of_subset S.nodup_toList h
  unfold silentDegree
  rw [← (perm.map _).sum_eq]
  exact (sublist.map _).sum_le_sum fun _ _ => Nat.zero_le _

/-- What ε transitions keep holds of every state that they lead to. -/
theorem Silent.keeps {P : State → Prop} {p : State} (path : A.Silent p q) (hp : P p)
    (closed : ∀ q, P q → ∀ r ∈ A.ends q none, P r) : P q := by
  induction path with
  | refl _ => exact hp
  | step hr _ ih => exact ih (closed _ hp _ hr)

namespace Search

variable {s t : Search}

/-! ### What holds at every moment -/

/-- What holds after `n` steps from the given states: what is seen or waits is reached, the given
states have been seen or wait, so has everything that ε leads to from seen states, and steps and
waiting states are as many as given states and ε transitions from seen states. -/
structure Sound (A : Automaton) (given : List State) (n : Nat) (s : Search) : Prop where
  reached : ∀ q, q ∈ s.seen ∨ q ∈ s.stack → ∃ r ∈ given, A.Silent r q
  held : ∀ q ∈ given, q ∈ s.seen ∨ q ∈ s.stack
  closed : ∀ q ∈ s.seen, ∀ r ∈ A.ends q none, r ∈ s.seen ∨ r ∈ s.stack
  count : n + s.stack.length = given.length + A.silentDegree s.seen

theorem sound_start (A : Automaton) (given : List State) : Sound A given 0 (start given) where
  reached := by
    intro q hq
    rcases hq with hq | hq
    · exact absurd hq (SortedSet.not_mem_empty q)
    · exact ⟨q, hq, .refl q⟩
  held := fun q hq => Or.inr hq
  closed := fun q hq => absurd hq (SortedSet.not_mem_empty q)
  count := by
    show 0 + given.length = given.length + 0
    omega

/-- Passing over a state that has been seen. -/
theorem Sound.pass {seen : SortedSet State} {rest : List State}
    (h : Sound A given n ⟨seen, q :: rest⟩) (known : q ∈ seen) :
    Sound A given (n + 1) ⟨seen, rest⟩ := by
  -- whatever was seen or waited still does
  have kept : ∀ r, r ∈ seen ∨ r ∈ q :: rest → r ∈ seen ∨ r ∈ rest := by
    intro r hr
    rcases hr with hr | hr
    · exact Or.inl hr
    · rcases List.mem_cons.1 hr with rfl | hr
      · exact Or.inl known
      · exact Or.inr hr
  have count : n + (rest.length + 1) = given.length + A.silentDegree seen := h.count
  exact
    { reached := fun r hr => h.reached r (hr.imp_right (List.mem_cons_of_mem q))
      held := fun r hr => kept r (h.held r hr)
      closed := fun p hp r hr => kept r (h.closed p hp r hr)
      count := by
        show n + 1 + rest.length = given.length + A.silentDegree seen
        omega }

/-- Visiting a new state. -/
theorem Sound.visit {seen : SortedSet State} {rest ends : List State}
    (h : Sound A given n ⟨seen, q :: rest⟩) (new : q ∉ seen)
    (perm : ends.Perm (A.ends q none).toList) :
    Sound A given (n + 1) ⟨seen.insert q, ends ++ rest⟩ := by
  have mem_ends : ∀ r, r ∈ ends ↔ r ∈ A.ends q none := fun r => perm.mem_iff
  have kept : ∀ r, r ∈ seen ∨ r ∈ q :: rest → r ∈ seen.insert q ∨ r ∈ ends ++ rest := by
    intro r hr
    rcases hr with hr | hr
    · exact Or.inl (SortedSet.mem_insert.2 (Or.inr hr))
    · rcases List.mem_cons.1 hr with rfl | hr
      · exact Or.inl (SortedSet.mem_insert.2 (Or.inl rfl))
      · exact Or.inr (List.mem_append_right ends hr)
  have here : ∃ r ∈ given, A.Silent r q := h.reached q (Or.inr List.mem_cons_self)
  have count : n + (rest.length + 1) = given.length + A.silentDegree seen := h.count
  have size : ends.length = (A.ends q none).size := perm.length_eq
  refine ⟨?_, fun r hr => kept r (h.held r hr), ?_, ?_⟩
  · intro r hr
    rcases hr with hr | hr
    · rcases SortedSet.mem_insert.1 hr with rfl | hr
      · exact here
      · exact h.reached r (Or.inl hr)
    · rcases List.mem_append.1 hr with hr | hr
      · obtain ⟨p, hp, path⟩ := here
        exact ⟨p, hp, path.tail ((mem_ends r).1 hr)⟩
      · exact h.reached r (Or.inr (List.mem_cons_of_mem q hr))
  · intro p hp r hr
    rcases SortedSet.mem_insert.1 hp with rfl | hp
    · exact Or.inr (List.mem_append_left rest ((mem_ends r).2 hr))
    · exact kept r (h.closed p hp r hr)
  · show n + 1 + (ends ++ rest).length = given.length + A.silentDegree (seen.insert q)
    rw [silentDegree_insert new, List.length_append]
    omega

theorem Sound.step (h : Sound A given n s) (step : Step A s t) : Sound A given (n + 1) t := by
  cases step with
  | pass known => exact h.pass known
  | visit new perm => exact h.visit new perm

theorem Sound.of_steps (h : Steps A n (start given) s) : Sound A given n s := by
  generalize first : start given = s₀ at h
  induction h with
  | none _ =>
    subst first
    exact sound_start A given
  | next _ last ih => exact (ih first).step last

/-! ### The end of a search -/

/-- A search goes on as long as states wait. -/
theorem exists_step (waits : s.stack ≠ []) : ∃ t, Step A s t := by
  obtain ⟨seen, stack⟩ := s
  cases stack with
  | nil => exact absurd rfl waits
  | cons q rest =>
    by_cases known : q ∈ seen
    · exact ⟨_, .pass known⟩
    · exact ⟨_, .visit known (List.Perm.refl _)⟩

/-- What has been seen lies in the closure. -/
theorem Sound.seen_subset (hA : A.WellFormed) (h : Sound A given n s) :
    s.seen ⊆ A.closure (.ofList given) := by
  intro q hq
  obtain ⟨r, hr, path⟩ := h.reached q (Or.inl hq)
  exact (mem_closure_iff hA).2 ⟨r, SortedSet.mem_ofList.2 hr, path⟩

/-- In the end it is all of the closure. -/
theorem Sound.seen_eq (hA : A.WellFormed) (h : Sound A given n s) (ended : s.stack = []) :
    s.seen = A.closure (.ofList given) := by
  have none : ∀ {r : State}, r ∈ s.seen ∨ r ∈ s.stack → r ∈ s.seen := by
    intro r hr
    rw [ended] at hr
    exact hr.resolve_right List.not_mem_nil
  apply SortedSet.ext
  intro q
  constructor
  · exact h.seen_subset hA q
  · intro hq
    obtain ⟨r, hr, path⟩ := (mem_closure_iff hA).1 hq
    exact path.keeps (none (h.held r (SortedSet.mem_ofList.1 hr))) fun p hp r hr =>
      none (h.closed p hp r hr)

/-- A search takes a step for every given state and every ε transition in the closure at most. -/
theorem Sound.steps_le (hA : A.WellFormed) (h : Sound A given n s) :
    n ≤ given.length + A.silentDegree (A.closure (.ofList given)) := by
  have count := h.count
  have most := silentDegree_le_of_subset (A := A) (h.seen_subset hA)
  omega

/-- If it has ended, it has taken exactly as many. -/
theorem Sound.steps_eq (hA : A.WellFormed) (h : Sound A given n s) (ended : s.stack = []) :
    n = given.length + A.silentDegree (A.closure (.ofList given)) := by
  have count := h.count
  rw [h.seen_eq hA ended, ended] at count
  exact count

/-- Every search can be brought to its end: it goes on while states wait, and there are only so many
steps. -/
theorem exists_complete (hA : A.WellFormed) (h : Steps A n (start given) s) :
    ∃ m t, Steps A m (start given) t ∧ t.stack = [] := by
  generalize left : given.length + A.silentDegree (A.closure (.ofList given)) - n = k
  induction k generalizing n s with
  | zero =>
    by_cases ended : s.stack = []
    · exact ⟨n, s, h, ended⟩
    · obtain ⟨t, step⟩ := exists_step (A := A) ended
      have bound := (Sound.of_steps (h.next step)).steps_le hA
      omega
  | succ k ih =>
    by_cases ended : s.stack = []
    · exact ⟨n, s, h, ended⟩
    · obtain ⟨t, step⟩ := exists_step (A := A) ended
      exact ih (h.next step) (by omega)

end Search

/-- **The closure.**  In a well-formed automaton the closure of any states, repeated or unknown ones
among them, holds what some of them reach by ε transitions, and is the least set that holds them
and is closed under ε transitions.  A search of it with a stack, in whatever order states are put
there, goes on while states wait and takes no more steps than there are given states and ε
transitions from states of the closure; when it has ended, which it does after exactly so many
steps, it has seen the closure. -/
theorem searching_gives_the_closure (hA : A.WellFormed) (given : List State) :
    (∀ q, q ∈ A.closure (.ofList given) ↔ ∃ r ∈ given, A.Silent r q) ∧
    ((∀ q ∈ given, q ∈ A.closure (.ofList given)) ∧
      (∀ q ∈ A.closure (.ofList given), ∀ r ∈ A.ends q none, r ∈ A.closure (.ofList given)) ∧
      ∀ P : State → Prop, (∀ q ∈ given, P q) → (∀ q, P q → ∀ r ∈ A.ends q none, P r) →
        ∀ q ∈ A.closure (.ofList given), P q) ∧
    (∀ n s, Search.Steps A n (.start given) s →
      n ≤ given.length + A.silentDegree (A.closure (.ofList given)) ∧
      (s.stack ≠ [] → ∃ t, Search.Step A s t) ∧
      (s.stack = [] → n = given.length + A.silentDegree (A.closure (.ofList given)) ∧
        s.seen = A.closure (.ofList given))) ∧
    ∃ n s, Search.Steps A n (.start given) s ∧ s.stack = [] := by
  have exact : ∀ q, q ∈ A.closure (.ofList given) ↔ ∃ r ∈ given, A.Silent r q := by
    intro q
    rw [mem_closure_iff hA]
    simp only [SortedSet.mem_ofList]
  refine ⟨exact, ⟨?_, ?_, ?_⟩, ?_, Search.exists_complete hA (.none _)⟩
  · intro q hq
    exact (exact q).2 ⟨q, hq, .refl q⟩
  · intro q hq r hr
    obtain ⟨p, hp, path⟩ := (exact q).1 hq
    exact (exact r).2 ⟨p, hp, path.tail hr⟩
  · intro P hgiven closed q hq
    obtain ⟨p, hp, path⟩ := (exact q).1 hq
    exact path.keeps (hgiven p hp) closed
  · intro n s steps
    have sound := Search.Sound.of_steps steps
    exact ⟨sound.steps_le hA, Search.exists_step,
      fun ended => ⟨sound.steps_eq hA ended, sound.seen_eq hA ended⟩⟩

/-- Two states that lead to each other by ε, one of which also leads to itself and on to a third. -/
def whirl : Automaton :=
  compact
    { alphabet := ∅
      states := .ofList [-1, 0, 2]
      transitions := .ofList [(⟨-1, none⟩, .singleton 0), (⟨0, none⟩, .ofList [-1, 0, 2])]
      start := -1
      accepting := ∅ }

/-- From a state given twice, and one that is unknown, a search takes seven steps. -/
theorem searching_whirl_gives_the_closure :
    whirl.WellFormed ∧ whirl.closure (.ofList [0, 9, 0]) = .ofList [-1, 0, 2, 9] ∧
      (∃ n s, Search.Steps whirl n (.start [0, 9, 0]) s ∧ s.stack = []) ∧
      ∀ n s, Search.Steps whirl n (.start [0, 9, 0]) s → s.stack = [] →
        n = 7 ∧ s.seen = .ofList [-1, 0, 2, 9] := by
  have wellFormed : whirl.WellFormed := wellFormed_compact (by decide)
  have closure : whirl.closure (.ofList [0, 9, 0]) = .ofList [-1, 0, 2, 9] := by decide
  obtain ⟨_, _, search, ends⟩ := searching_gives_the_closure wellFormed [0, 9, 0]
  refine ⟨wellFormed, closure, ends, ?_⟩
  intro n s steps ended
  obtain ⟨count, seen⟩ := (search n s steps).2.2 ended
  rw [closure] at count seen
  exact ⟨count, seen⟩

end Automaton

end PatternAutomata
