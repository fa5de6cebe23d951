import Mathlib.Data.List.Induction
import PatternAutomata.Automaton.Prune
import PatternAutomata.Proofs.Automaton.Acceptance
import PatternAutomata.Proofs.Automaton.Assembly

/-!
# Pruning

The states that pruning keeps are those that paths along symbols lead to.  If no ε transition leads
from one of these to another state, pruning gives the automaton with the kept states and all
transitions that leave them.  A deterministic automaton has no ε transitions: pruning it never
fails, and keeps exactly the states that texts lead to.

* `Direct` — paths without ε transitions; `mem_reachable_iff` — they lead to the kept states;
* `Confined` — no ε transition leads from a kept state to another one;
* `IsPruning` — an automaton as it is on the kept states;
* `Confined.exists_prune` — pruning gives it;
* `IsDfa.mem_reachable_iff` — the kept states of a deterministic automaton are those that texts
  lead to;
* `IsReachablePart`, `IsDfa.exists_prune` — a deterministic automaton as it is on these states,
  which is what pruning gives;
* `IsReachablePart.walk_eq`, `IsReachablePart.accepts_iff` — it goes the same ways and accepts the
  same texts;
* `AllReachable`, `IsReachablePart.allReachable` — all its states are reached.
-/

namespace PatternAutomata

namespace Automaton

variable {A B : Automaton} {q r s : State} {l : Label} {c : Symbol} {w : Text}

/-! ### Paths along symbols -/

/-- Some path between two states that takes no ε transition spells a text. -/
inductive Direct (A : Automaton) : State → Text → State → Prop where
  | refl (q : State) : Direct A q [] q
  | read {q r s : State} {c : Symbol} {w : Text} :
      r ∈ A.ends q (some c) → Direct A r w s → Direct A q (c :: w) s

theorem Direct.path (h : A.Direct q w r) : A.Path q w r := by
  induction h with
  | refl q => exact .refl q
  | read hr _ ih => exact .read hr ih

theorem Direct.snoc (h : A.Direct q w r) (hs : s ∈ A.ends r (some c)) :
    A.Direct q (w ++ [c]) s := by
  induction h with
  | refl q => exact .read hs (.refl s)
  | read hr _ ih => exact .read hr (ih hs)

theorem mem_neighbours_iff (hA : A.WellFormed) :
    r ∈ A.neighbours q ↔ ∃ c, r ∈ A.ends q (some c) := by
  show r ∈ A.alphabet.toList.flatMap (fun c => (A.ends q (some c)).toList) ↔ _
  rw [List.mem_flatMap]
  constructor
  · intro h
    obtain ⟨c, _, hr⟩ := h
    exact ⟨c, hr⟩
  · intro h
    obtain ⟨c, hr⟩ := h
    exact ⟨c, (hA.fitsEntry_of_mem_ends hr).symbol_mem c rfl, hr⟩

/-- The kept states are those that paths along symbols lead to. -/
theorem mem_reachable_iff (hA : A.WellFormed) :
    q ∈ A.reachable ↔ ∃ w, A.Direct A.start w q := by
  show q ∈ SortedSet.ofList (explore A.neighbours A.states.size [A.start]) ↔ _
  rw [SortedSet.mem_ofList]
  constructor
  · intro h
    refine explore_induction (P := fun a => ∃ w, A.Direct A.start w a) ?_ ?_ q h
    · intro a ha
      rw [List.mem_singleton.1 ha]
      exact ⟨[], .refl _⟩
    · intro a ha b hb
      obtain ⟨w, hw⟩ := ha
      obtain ⟨c, hb⟩ := (mem_neighbours_iff hA).1 hb
      exact ⟨w ++ [c], hw.snoc hb⟩
  · intro h
    obtain ⟨w, hw⟩ := h
    have within : ∀ a ∈ [A.start], a ∈ A.states.toList := by
      intro a ha
      exact List.mem_singleton.1 ha ▸ hA.start_mem
    have inside : ∀ a ∈ A.states.toList, ∀ b ∈ A.neighbours a, b ∈ A.states.toList := by
      intro a _ b hb
      obtain ⟨c, hb⟩ := (mem_neighbours_iff hA).1 hb
      exact hA.mem_states_of_mem_ends hb
    have closed := explore_closed within inside (Nat.le_refl A.states.size)
    have reached : ∀ {a b : State} {w : Text}, A.Direct a w b →
        a ∈ explore A.neighbours A.states.size [A.start] →
        b ∈ explore A.neighbours A.states.size [A.start] := by
      intro a b w hab
      induction hab with
      | refl _ => exact id
      | read hr _ ih => exact fun ha => ih (closed _ ha _ ((mem_neighbours_iff hA).2 ⟨_, hr⟩))
    exact reached hw (mem_explore_of_mem (List.mem_singleton.2 rfl))

theorem start_mem_reachable (hA : A.WellFormed) : A.start ∈ A.reachable :=
  (mem_reachable_iff hA).2 ⟨[], .refl _⟩

theorem reachable_subset (hA : A.WellFormed) : A.reachable ⊆ A.states := by
  intro q hq
  obtain ⟨w, hw⟩ := (mem_reachable_iff hA).1 hq
  exact hw.path.state_mem hA hA.start_mem

theorem mem_reachable_of_mem_ends (hA : A.WellFormed) (hq : q ∈ A.reachable)
    (hr : r ∈ A.ends q (some c)) : r ∈ A.reachable := by
  obtain ⟨w, hw⟩ := (mem_reachable_iff hA).1 hq
  exact (mem_reachable_iff hA).2 ⟨w ++ [c], hw.snoc hr⟩

/-! ### Restricting to some states -/

/-- The kept states keep their transitions, and no other state has any. -/
theorem ends_restrict (A : Automaton) (kept : SortedSet State) (q : State) (l : Label) :
    (A.restrict kept).ends q l = if q ∈ kept then A.ends q l else ∅ := by
  show ((A.transitions.filter fun origin _ => decide (origin.source ∈ kept)).get? ⟨q, l⟩).getD ∅
    = if q ∈ kept then (A.transitions.get? ⟨q, l⟩).getD ∅ else ∅
  rw [OrderedMap.get?_filter]
  cases A.transitions.get? ⟨q, l⟩ with
  | none => simp
  | some e => by_cases hq : q ∈ kept <;> simp [Option.filter, hq]

/-- No entry of the restricted table leads nowhere. -/
theorem compact_restrict (hA : A.WellFormed) (kept : SortedSet State) :
    (A.restrict kept).compact = A.restrict kept :=
  compact_eq_self fun q l ends mem => hA.nonempty q l ends (List.mem_filter.1 mem).1

/-! ### When there is a pruned automaton -/

/-- No ε transition leads from a state reached along symbols to one that is not. -/
def Confined (A : Automaton) : Prop := ∀ q ∈ A.reachable, A.ends q none ⊆ A.reachable

/-- Then no transition at all does. -/
theorem Confined.ends_subset (h : A.Confined) (hA : A.WellFormed) (hq : q ∈ A.reachable)
    (l : Label) : A.ends q l ⊆ A.reachable := by
  cases l with
  | none => exact h q hq
  | some c => exact fun r hr => mem_reachable_of_mem_ends hA hq hr

theorem Confined.fits_restrict (h : A.Confined) (hA : A.WellFormed) :
    (A.restrict A.reachable).Fits where
  start_mem := start_mem_reachable hA
  accepting_subset := by
    intro q hq
    exact (SortedSet.mem_inter.1 hq).2
  step := by
    intro q l r hr
    by_cases hq : q ∈ A.reachable
    · rw [ends_restrict, if_pos hq] at hr
      exact ⟨hq, h.ends_subset hA hq l r hr, (hA.fitsEntry_of_mem_ends hr).symbol_mem⟩
    · rw [ends_restrict, if_neg hq] at hr
      exact absurd hr (SortedSet.not_mem_empty _)
  deterministic := by
    intro kind
    obtain ⟨silent, steps⟩ := hA.deterministic kind
    constructor
    · intro q (hq : q ∈ A.reachable)
      rw [ends_restrict, if_pos hq]
      exact silent q (reachable_subset hA q hq)
    · intro q (hq : q ∈ A.reachable) c hc
      rw [ends_restrict, if_pos hq]
      exact steps q (reachable_subset hA q hq) c hc

/-- `B` is the automaton `A` on the states that it reaches along symbols: it has all transitions
that leave them, and their names. -/
structure IsPruning (A B : Automaton) : Prop where
  wellFormed : B.WellFormed
  states : B.states = A.reachable
  alphabet : B.alphabet = A.alphabet
  kind : B.kind = A.kind
  start : B.start = A.start
  transitions : B.transitions =
    A.transitions.filter fun origin _ => decide (origin.source ∈ A.reachable)
  accepting : B.accepting = A.accepting.inter A.reachable
  names : ∀ q ∈ A.reachable, B.names.get? q = A.names.get? q

theorem IsPruning.ends_eq (h : A.IsPruning B) (hq : q ∈ A.reachable) (l : Label) :
    B.ends q l = A.ends q l := by
  have table : B.ends q l = (A.restrict A.reachable).ends q l := by
    unfold ends
    rw [h.transitions]
    rfl
  rw [table, ends_restrict, if_pos hq]

/-- An automaton that reaches all its states along symbols is not changed. -/
theorem isPruning_self (hA : A.WellFormed) (all : A.reachable = A.states) : A.IsPruning A where
  wellFormed := hA
  states := all.symm
  alphabet := rfl
  kind := rfl
  start := rfl
  transitions := by
    refine (OrderedMap.filter_eq_self ?_).symm
    intro origin ends mem
    rw [all]
    exact decide_eq_true (hA.fitsEntry origin.source origin.label ends mem).source_mem
  accepting := by
    apply SortedSet.ext
    intro q
    rw [all, SortedSet.mem_inter]
    exact (and_iff_left_of_imp (hA.accepting_subset q)).symm
  names := fun _ _ => rfl

theorem Confined.isPruning_restrict (h : A.Confined) (hA : A.WellFormed) :
    A.IsPruning (A.restrict A.reachable) where
  wellFormed := by
    rw [← compact_restrict hA]
    exact (h.fits_restrict hA).wellFormed_compact
  states := rfl
  alphabet := rfl
  kind := rfl
  start := rfl
  transitions := rfl
  accepting := rfl
  names := by
    intro q hq
    show (A.names.filter fun p _ => decide (p ∈ A.reachable)).get? q = _
    rw [OrderedMap.get?_filter]
    cases A.names.get? q with
    | none => rfl
    | some t => simp [Option.filter, hq]

/-- Pruning gives the automaton on the kept states if no ε transition leads out of them. -/
theorem Confined.exists_prune (h : A.Confined) (hA : A.WellFormed) :
    ∃ B, A.prune = .ok B ∧ A.IsPruning B := by
  unfold prune
  by_cases all : A.reachable = A.states
  · rw [if_pos all]
    exact ⟨A, rfl, isPruning_self hA all⟩
  · rw [if_neg all, (h.fits_restrict hA).assemble_eq, compact_restrict hA]
    exact ⟨_, rfl, h.isPruning_restrict hA⟩

/-! ### Deterministic automata -/

/-- Some text over the alphabet leads to the state. -/
def Reaches (A : Automaton) (q : State) : Prop := ∃ w, A.Over w ∧ A.walk A.start w = q

/-- Every state is one that texts lead to. -/
def AllReachable (A : Automaton) : Prop := ∀ q ∈ A.states.toList, A.Reaches q

theorem IsDfa.mem_states_of_reaches (hA : A.IsDfa) (h : A.Reaches q) : q ∈ A.states := by
  obtain ⟨w, hw, rfl⟩ := h
  exact hA.walk_mem hA.wellFormed.start_mem hw

/-- All paths of a deterministic automaton are paths along symbols. -/
theorem IsDfa.direct_iff_path (hA : A.IsDfa) (hq : q ∈ A.states) :
    A.Direct q w r ↔ A.Path q w r := by
  constructor
  · exact Direct.path
  · intro h
    induction h with
    | refl q => exact .refl q
    | silent hr _ _ => exact absurd hr (hA.not_mem_ends_none hq)
    | read hr _ ih => exact .read hr (ih (hA.wellFormed.mem_states_of_mem_ends hr))

theorem IsDfa.mem_reachable_iff_path (hA : A.IsDfa) :
    q ∈ A.reachable ↔ ∃ w, A.Path A.start w q :=
  (mem_reachable_iff hA.wellFormed).trans
    (exists_congr fun _ => hA.direct_iff_path hA.wellFormed.start_mem)

theorem IsDfa.mem_reachable_iff (hA : A.IsDfa) : q ∈ A.reachable ↔ A.Reaches q :=
  hA.mem_reachable_iff_path.trans (exists_congr fun _ => hA.path_iff hA.wellFormed.start_mem)

theorem IsDfa.confined (hA : A.IsDfa) : A.Confined := by
  intro q hq r hr
  exact absurd hr (hA.not_mem_ends_none (reachable_subset hA.wellFormed q hq))

/-- `B` is the deterministic automaton `A` on the states that texts lead to. -/
structure IsReachablePart (A B : Automaton) : Prop where
  isDfa : B.IsDfa
  alphabet : B.alphabet = A.alphabet
  start : B.start = A.start
  mem_states_iff : ∀ q, q ∈ B.states ↔ A.Reaches q
  ends : ∀ q, q ∈ B.states → ∀ l, B.ends q l = A.ends q l
  accepting : ∀ q, q ∈ B.states → (q ∈ B.accepting ↔ q ∈ A.accepting)

/-- A deterministic automaton with all states reached is its own reachable part. -/
theorem IsDfa.isReachablePart_self (hA : A.IsDfa) (all : A.AllReachable) : A.IsReachablePart A where
  isDfa := hA
  alphabet := rfl
  start := rfl
  mem_states_iff := fun q => ⟨all q, hA.mem_states_of_reaches⟩
  ends := fun _ _ _ => rfl
  accepting := fun _ _ => Iff.rfl

theorem IsPruning.isReachablePart (h : A.IsPruning B) (hA : A.IsDfa) : A.IsReachablePart B where
  isDfa := ⟨h.wellFormed, h.kind.trans hA.kind⟩
  alphabet := h.alphabet
  start := h.start
  mem_states_iff := by
    intro q
    rw [h.states, hA.mem_reachable_iff]
  ends := by
    intro q hq l
    rw [h.states] at hq
    exact h.ends_eq hq l
  accepting := by
    intro q hq
    rw [h.states] at hq
    rw [h.accepting, SortedSet.mem_inter]
    exact and_iff_left hq

/-- Pruning a deterministic automaton gives its reachable part. -/
theorem IsDfa.exists_prune (hA : A.IsDfa) : ∃ B, A.prune = .ok B ∧ A.IsReachablePart B := by
  obtain ⟨B, pruned, part⟩ := hA.confined.exists_prune hA.wellFormed
  exact ⟨B, pruned, part.isReachablePart hA⟩

namespace IsReachablePart

theorem over_iff (h : A.IsReachablePart B) : B.Over w ↔ A.Over w :=
  over_iff_of_alphabet h.alphabet

theorem advance_eq (h : A.IsReachablePart B) (hq : q ∈ B.states) :
    B.advance q c = A.advance q c := by
  unfold advance successor?
  rw [h.ends q hq]

/-- Where texts over the alphabet lead stays the same. -/
theorem walk_eq (h : A.IsReachablePart B) (hw : A.Over w) :
    B.walk B.start w = A.walk A.start w := by
  induction w using List.reverseRecOn with
  | nil => exact h.start
  | append_singleton w c ih =>
    obtain ⟨hw, _⟩ := over_append.1 hw
    have reached := h.isDfa.walk_mem h.isDfa.wellFormed.start_mem (h.over_iff.2 hw)
    rw [walk_snoc, walk_snoc, h.advance_eq reached, ih hw]

theorem allReachable (h : A.IsReachablePart B) : B.AllReachable := by
  intro q hq
  obtain ⟨w, hw, rfl⟩ := (h.mem_states_iff q).1 hq
  exact ⟨w, h.over_iff.2 hw, h.walk_eq hw⟩

theorem accepts_iff (h : A.IsReachablePart B) (hA : A.IsDfa) : B.Accepts w ↔ A.Accepts w := by
  rw [h.isDfa.accepts_iff_walk, hA.accepts_iff_walk, h.over_iff]
  apply and_congr_right
  intro hw
  rw [h.accepting _ (h.isDfa.walk_mem h.isDfa.wellFormed.start_mem (h.over_iff.2 hw)),
    h.walk_eq hw]

end IsReachablePart

end Automaton

end PatternAutomata
