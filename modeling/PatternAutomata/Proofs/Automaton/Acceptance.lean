import Mathlib.Data.List.Induction
import PatternAutomata.Automaton.Path
import PatternAutomata.Proofs.Data.SortedSet

/-!
# Acceptance is acceptance along paths

An automaton is run on sets of states, or, if it is deterministic, state by state.  Both ways accept
a text exactly if some path from the start state to an accepting state spells it.

* `Automaton.Over` — a text has only symbols of the alphabet;
* `Automaton.statesAfter` — the states in which the automaton can be after a text;
* `mem_statesAfter_iff` — those are the ends of the paths that spell the text;
* `Automaton.IsDfa` — a well-formed automaton that is deterministic;
* `Automaton.walk` — the state after a text, for a deterministic automaton;
* `IsDfa.path_iff` — its paths are its walks;
* `IsDfa.after_singleton`, `IsDfa.statesAfter_eq`, `IsDfa.acceptsFrom_singleton` — run on sets of
  states, it is in one state at a time;
* `accepts_iff` — what is computed is acceptance along paths.
-/

namespace PatternAutomata

namespace Automaton

variable {A B : Automaton} {q r s : State} {c : Symbol} {v w : Text} {S : SortedSet State}

/-! ### Texts over the alphabet -/

/-- The text has only symbols of the alphabet. -/
def Over (A : Automaton) (w : Text) : Prop := ∀ c ∈ w, c ∈ A.alphabet

theorem over_nil (A : Automaton) : A.Over [] := fun _ hc => absurd hc List.not_mem_nil

theorem over_cons : A.Over (c :: w) ↔ c ∈ A.alphabet ∧ A.Over w := List.forall_mem_cons

theorem over_append : A.Over (v ++ w) ↔ A.Over v ∧ A.Over w := List.forall_mem_append

theorem over_iff_of_alphabet (alphabet : B.alphabet = A.alphabet) : B.Over w ↔ A.Over w := by
  show (∀ c ∈ w, c ∈ B.alphabet) ↔ ∀ c ∈ w, c ∈ A.alphabet
  rw [alphabet]

/-! ### Paths that spell nothing, and paths that spell a first symbol -/

theorem path_nil_iff : A.Path q [] r ↔ A.Silent q r := by
  constructor
  · intro h
    generalize hw : ([] : Text) = w at h
    induction h with
    | refl q => exact .refl q
    | silent hr _ ih => exact .step hr (ih hw)
    | read _ _ _ => cases hw
  · intro h
    exact h.path (.refl r)

theorem path_cons_iff :
    A.Path q (c :: w) s ↔ ∃ p r, A.Silent q p ∧ r ∈ A.ends p (some c) ∧ A.Path r w s := by
  constructor
  · intro h
    generalize hv : c :: w = v at h
    induction h with
    | refl _ => cases hv
    | silent hr _ ih =>
      obtain ⟨p, r, hp, hpr, hs⟩ := ih hv
      exact ⟨p, r, .step hr hp, hpr, hs⟩
    | read hr tail _ =>
      cases hv
      exact ⟨_, _, .refl _, hr, tail⟩
  · intro h
    obtain ⟨p, r, hp, hpr, hs⟩ := h
    exact hp.path (.read hpr hs)

/-! ### Sets of states -/

/-- Every state that ε transitions reach from a member is a member. -/
def SilentlyClosed (A : Automaton) (S : SortedSet State) : Prop :=
  ∀ q r, q ∈ S → A.Silent q r → r ∈ S

theorem closure_silentlyClosed (hA : A.WellFormed) (S : SortedSet State) :
    A.SilentlyClosed (A.closure S) := by
  intro q r hq hqr
  obtain ⟨p, hp, hpq⟩ := (mem_closure_iff hA).1 hq
  exact (mem_closure_iff hA).2 ⟨p, hp, hpq.trans hqr⟩

theorem initial_silentlyClosed (hA : A.WellFormed) : A.SilentlyClosed A.initial :=
  closure_silentlyClosed hA _

theorem after_silentlyClosed (hA : A.WellFormed) (S : SortedSet State) (c : Symbol) :
    A.SilentlyClosed (A.after S c) :=
  closure_silentlyClosed hA _

theorem mem_after_iff (hA : A.WellFormed) :
    r ∈ A.after S c ↔ ∃ p q, p ∈ S ∧ q ∈ A.ends p (some c) ∧ A.Silent q r := by
  show r ∈ A.closure (S.bind fun q => A.ends q (some c)) ↔ _
  rw [mem_closure_iff hA]
  constructor
  · intro h
    obtain ⟨q, hq, hqr⟩ := h
    obtain ⟨p, hp, hpq⟩ := SortedSet.mem_bind.1 hq
    exact ⟨p, q, hp, hpq, hqr⟩
  · intro h
    obtain ⟨p, q, hp, hpq, hqr⟩ := h
    exact ⟨q, SortedSet.mem_bind.2 ⟨p, hp, hpq⟩, hqr⟩

/-- Reading a text from a closed set leads to the ends of the paths that spell it. -/
theorem mem_foldl_after_iff (hA : A.WellFormed) (hS : A.SilentlyClosed S) :
    r ∈ w.foldl A.after S ↔ ∃ q, q ∈ S ∧ A.Path q w r := by
  induction w generalizing S with
  | nil =>
    rw [List.foldl_nil]
    constructor
    · intro h
      exact ⟨r, h, .refl r⟩
    · intro h
      obtain ⟨q, hq, hqr⟩ := h
      exact hS q r hq (path_nil_iff.1 hqr)
  | cons c w ih =>
    rw [List.foldl_cons, ih (after_silentlyClosed hA S c)]
    constructor
    · intro h
      obtain ⟨q, hq, hqr⟩ := h
      obtain ⟨p, m, hp, hpm, hmq⟩ := (mem_after_iff hA).1 hq
      exact ⟨p, hp, .read hpm (hmq.path hqr)⟩
    · intro h
      obtain ⟨q, hq, hqr⟩ := h
      obtain ⟨p, m, hqp, hpm, hmr⟩ := path_cons_iff.1 hqr
      exact ⟨m, (mem_after_iff hA).2 ⟨p, m, hS q p hq hqp, hpm, .refl m⟩, hmr⟩

/-- The states in which the automaton can be after a text. -/
def statesAfter (A : Automaton) (w : Text) : SortedSet State := w.foldl A.after A.initial

theorem statesAfter_nil (A : Automaton) : A.statesAfter [] = A.initial := rfl

theorem statesAfter_snoc (A : Automaton) (w : Text) (c : Symbol) :
    A.statesAfter (w ++ [c]) = A.after (A.statesAfter w) c := by
  show (w ++ [c]).foldl A.after A.initial = _
  rw [List.foldl_append]
  rfl

theorem mem_statesAfter_iff (hA : A.WellFormed) : r ∈ A.statesAfter w ↔ A.Path A.start w r := by
  show r ∈ w.foldl A.after A.initial ↔ _
  rw [mem_foldl_after_iff hA (initial_silentlyClosed hA)]
  constructor
  · intro h
    obtain ⟨q, hq, hqr⟩ := h
    obtain ⟨p, hp, hpq⟩ := (mem_closure_iff hA).1 hq
    rw [SortedSet.mem_singleton.1 hp] at hpq
    exact hpq.path hqr
  · intro h
    exact ⟨A.start, (mem_closure_iff hA).2 ⟨A.start, SortedSet.mem_singleton.2 rfl, .refl _⟩, h⟩

theorem statesAfter_subset (hA : A.WellFormed) (w : Text) : A.statesAfter w ⊆ A.states := by
  intro q hq
  exact ((mem_statesAfter_iff hA).1 hq).state_mem hA hA.start_mem

/-- Rejecting at the first symbol outside the alphabet, or at the first empty set, makes no
difference: no path goes on from there. -/
theorem acceptsFrom_iff (hA : A.WellFormed) (hS : A.SilentlyClosed S) :
    A.acceptsFrom S w = true ↔ ∃ r, r ∈ w.foldl A.after S ∧ r ∈ A.accepting := by
  induction w generalizing S with
  | nil =>
    simp only [acceptsFrom, Bool.not_eq_true', decide_eq_false_iff_not, List.foldl_nil]
    exact SortedSet.not_disjoint_iff
  | cons c w ih =>
    have stuck : c ∉ A.alphabet ∨ (A.after S c).isEmpty = true →
        ¬ ∃ r, r ∈ (c :: w).foldl A.after S ∧ r ∈ A.accepting := by
      intro h reached
      obtain ⟨r, hr, _⟩ := reached
      obtain ⟨q, hq, hqr⟩ := (mem_foldl_after_iff hA hS).1 hr
      rcases h with hc | hempty
      · exact hc (hqr.symbol_mem hA c List.mem_cons_self)
      · obtain ⟨p, m, hqp, hpm, _⟩ := path_cons_iff.1 hqr
        exact SortedSet.isEmpty_iff.1 hempty m
          ((mem_after_iff hA).2 ⟨p, m, hS q p hq hqp, hpm, .refl m⟩)
    rw [acceptsFrom]
    split
    · split
      · next hempty => simpa using stuck (Or.inr hempty)
      · exact ih (after_silentlyClosed hA S c)
    · next hc => simpa using stuck (Or.inl hc)

/-! ### Deterministic automata -/

/-- A well-formed automaton that is deterministic. -/
structure IsDfa (A : Automaton) : Prop where
  wellFormed : A.WellFormed
  kind : A.kind = .deterministic

/-- The state that a symbol leads to; a state without a single successor stays. -/
def advance (A : Automaton) (q : State) (c : Symbol) : State := (A.successor? q c).getD q

/-- The state after a text. -/
def walk (A : Automaton) (q : State) (w : Text) : State := w.foldl A.advance q

theorem walk_nil (A : Automaton) (q : State) : A.walk q [] = q := rfl

theorem walk_cons (A : Automaton) (q : State) (c : Symbol) (w : Text) :
    A.walk q (c :: w) = A.walk (A.advance q c) w := rfl

theorem walk_append (A : Automaton) (q : State) (v w : Text) :
    A.walk q (v ++ w) = A.walk (A.walk q v) w := List.foldl_append

theorem walk_snoc (A : Automaton) (q : State) (w : Text) (c : Symbol) :
    A.walk q (w ++ [c]) = A.advance (A.walk q w) c := walk_append A q w [c]

namespace IsDfa

theorem isDeterministic (hA : A.IsDfa) : A.isDeterministic = true := by
  simp [Automaton.isDeterministic, hA.kind]

theorem ends_none (hA : A.IsDfa) (hq : q ∈ A.states) : A.ends q none = ∅ :=
  (hA.wellFormed.deterministic hA.kind).ends_none q hq

theorem not_mem_ends_none (hA : A.IsDfa) (hq : q ∈ A.states) : r ∉ A.ends q none := by
  rw [hA.ends_none hq]
  exact SortedSet.not_mem_empty r

/-- Every symbol leads to exactly one state. -/
theorem ends_some (hA : A.IsDfa) (hq : q ∈ A.states) (hc : c ∈ A.alphabet) :
    A.ends q (some c) = .singleton (A.advance q c) := by
  have one := (hA.wellFormed.deterministic hA.kind).size_ends q hq c hc
  obtain ⟨r, hr⟩ := SortedSet.size_eq_one_iff.1 one
  simp [advance, successor?, only?, hr, SortedSet.toList_singleton]

theorem mem_ends_some_iff (hA : A.IsDfa) (hq : q ∈ A.states) (hc : c ∈ A.alphabet) :
    r ∈ A.ends q (some c) ↔ r = A.advance q c := by
  rw [hA.ends_some hq hc, SortedSet.mem_singleton]

theorem successor?_eq (hA : A.IsDfa) (hq : q ∈ A.states) (hc : c ∈ A.alphabet) :
    A.successor? q c = some (A.advance q c) := by
  rw [successor?, hA.ends_some hq hc]
  rfl

theorem advance_mem (hA : A.IsDfa) (hq : q ∈ A.states) (hc : c ∈ A.alphabet) :
    A.advance q c ∈ A.states :=
  hA.wellFormed.mem_states_of_mem_ends ((hA.mem_ends_some_iff hq hc).2 rfl)

theorem walk_mem (hA : A.IsDfa) (hq : q ∈ A.states) (hw : A.Over w) : A.walk q w ∈ A.states := by
  induction w generalizing q with
  | nil => exact hq
  | cons c w ih =>
    obtain ⟨hc, hw⟩ := over_cons.1 hw
    exact ih (hA.advance_mem hq hc) hw

theorem silent_iff (hA : A.IsDfa) (hq : q ∈ A.states) : A.Silent q r ↔ r = q := by
  constructor
  · intro h
    cases h with
    | refl _ => rfl
    | step hp _ => exact absurd hp (hA.not_mem_ends_none hq)
  · intro h
    rw [h]
    exact .refl q

/-- The paths of a deterministic automaton are its walks. -/
theorem path_iff (hA : A.IsDfa) (hq : q ∈ A.states) :
    A.Path q w r ↔ A.Over w ∧ A.walk q w = r := by
  induction w generalizing q with
  | nil =>
    rw [path_nil_iff, hA.silent_iff hq, walk_nil]
    constructor
    · intro h
      exact ⟨over_nil A, h.symm⟩
    · intro h
      exact h.2.symm
  | cons c w ih =>
    rw [path_cons_iff, over_cons, walk_cons]
    constructor
    · intro h
      obtain ⟨p, m, hqp, hpm, hmr⟩ := h
      rw [(hA.silent_iff hq).1 hqp] at hpm
      have hc := (hA.wellFormed.fitsEntry_of_mem_ends hpm).symbol_mem c rfl
      rw [(hA.mem_ends_some_iff hq hc).1 hpm] at hmr
      obtain ⟨hw, hr⟩ := (ih (hA.advance_mem hq hc)).1 hmr
      exact ⟨⟨hc, hw⟩, hr⟩
    · intro h
      obtain ⟨⟨hc, hw⟩, hr⟩ := h
      exact ⟨q, A.advance q c, .refl q, (hA.mem_ends_some_iff hq hc).2 rfl,
        (ih (hA.advance_mem hq hc)).2 ⟨hw, hr⟩⟩

theorem acceptsAlong_iff (hA : A.IsDfa) (hq : q ∈ A.states) :
    A.acceptsAlong q w = true ↔ A.Over w ∧ A.walk q w ∈ A.accepting := by
  induction w generalizing q with
  | nil => simp [acceptsAlong, over_nil, walk_nil]
  | cons c w ih =>
    rw [acceptsAlong, over_cons, walk_cons]
    by_cases hc : c ∈ A.alphabet
    · rw [if_pos hc, hA.successor?_eq hq hc]
      simp only [hc, true_and]
      exact ih (hA.advance_mem hq hc)
    · simp [hc]

/-! ### A deterministic automaton run on sets of states -/

theorem initial_eq (hA : A.IsDfa) : A.initial = .singleton A.start := by
  apply SortedSet.ext
  intro r
  rw [initial, mem_closure_iff hA.wellFormed, SortedSet.mem_singleton]
  constructor
  · intro h
    obtain ⟨q, hq, hqr⟩ := h
    rw [SortedSet.mem_singleton.1 hq] at hqr
    exact (hA.silent_iff hA.wellFormed.start_mem).1 hqr
  · intro h
    rw [h]
    exact ⟨A.start, SortedSet.mem_singleton.2 rfl, .refl _⟩

/-- From one state a symbol leads to one state, and no ε transition leads on from there. -/
theorem after_singleton (hA : A.IsDfa) (hq : q ∈ A.states) (hc : c ∈ A.alphabet) :
    A.after (.singleton q) c = .singleton (A.advance q c) := by
  apply SortedSet.ext
  intro r
  rw [mem_after_iff hA.wellFormed, SortedSet.mem_singleton]
  constructor
  · intro h
    obtain ⟨p, s, hp, hs, hsr⟩ := h
    rw [SortedSet.mem_singleton.1 hp, hA.mem_ends_some_iff hq hc] at hs
    rw [hs] at hsr
    exact (hA.silent_iff (hA.advance_mem hq hc)).1 hsr
  · intro h
    rw [h]
    exact ⟨q, A.advance q c, SortedSet.mem_singleton.2 rfl, (hA.mem_ends_some_iff hq hc).2 rfl,
      .refl _⟩

/-- So the set of states after a text has one member, where the text leads. -/
theorem statesAfter_eq (hA : A.IsDfa) (hw : A.Over w) :
    A.statesAfter w = .singleton (A.walk A.start w) := by
  induction w using List.reverseRecOn with
  | nil => exact hA.initial_eq
  | append_singleton w c ih =>
    obtain ⟨hw, hc⟩ := over_append.1 hw
    rw [statesAfter_snoc, ih hw, walk_snoc]
    exact hA.after_singleton (hA.walk_mem hA.wellFormed.start_mem hw) (over_cons.1 hc).1

/-- Both ways to run a deterministic automaton go from state to state in step. -/
theorem acceptsFrom_singleton (hA : A.IsDfa) (hq : q ∈ A.states) :
    A.acceptsFrom (.singleton q) w = A.acceptsAlong q w := by
  induction w generalizing q with
  | nil =>
    rw [acceptsFrom, acceptsAlong, Bool.eq_iff_iff, Bool.not_eq_true', decide_eq_false_iff_not,
      SortedSet.not_disjoint_iff, decide_eq_true_eq]
    constructor
    · intro h
      obtain ⟨r, hr, hacc⟩ := h
      rwa [SortedSet.mem_singleton.1 hr] at hacc
    · intro h
      exact ⟨q, SortedSet.mem_singleton.2 rfl, h⟩
  | cons c w ih =>
    rw [acceptsFrom, acceptsAlong]
    by_cases hc : c ∈ A.alphabet
    · rw [if_pos hc, if_pos hc, hA.after_singleton hq hc, hA.successor?_eq hq hc]
      exact ih (hA.advance_mem hq hc)
    · rw [if_neg hc, if_neg hc]

/-! ### What a deterministic automaton accepts -/

/-- A deterministic automaton accepts the texts over its alphabet that lead to accepting states. -/
theorem accepts_iff_walk (hA : A.IsDfa) :
    A.Accepts w ↔ A.Over w ∧ A.walk A.start w ∈ A.accepting := by
  constructor
  · intro h
    obtain ⟨r, hr, path⟩ := h
    obtain ⟨hw, rfl⟩ := (hA.path_iff hA.wellFormed.start_mem).1 path
    exact ⟨hw, hr⟩
  · intro h
    exact ⟨_, h.2, (hA.path_iff hA.wellFormed.start_mem).2 ⟨h.1, rfl⟩⟩

end IsDfa

/-! ### What is computed -/

/-- A well-formed automaton of either kind accepts what its paths spell. -/
theorem accepts_iff (hA : A.WellFormed) : A.accepts w = true ↔ A.Accepts w := by
  show (if A.isDeterministic then A.acceptsAlong A.start w else A.acceptsFrom A.initial w) = true
    ↔ _
  by_cases hk : A.isDeterministic = true
  · rw [if_pos hk]
    have hD : A.IsDfa := ⟨hA, of_decide_eq_true hk⟩
    rw [hD.acceptsAlong_iff hA.start_mem, hD.accepts_iff_walk]
  · rw [if_neg hk, acceptsFrom_iff hA (initial_silentlyClosed hA)]
    constructor
    · intro h
      obtain ⟨r, hr, hacc⟩ := h
      exact ⟨r, hacc, (mem_statesAfter_iff hA).1 hr⟩
    · intro h
      obtain ⟨r, hacc, path⟩ := h
      exact ⟨r, (mem_statesAfter_iff hA).2 path, hacc⟩

theorem Accepts.over (hA : A.WellFormed) (h : A.Accepts w) : A.Over w := by
  obtain ⟨_, _, path⟩ := h
  exact path.symbol_mem hA

end Automaton

end PatternAutomata
