import PatternAutomata.Automaton.Run
import PatternAutomata.Automaton.WellFormed

/-!
# Paths

What an automaton accepts, told by paths through its transitions, without regard to how acceptance
is computed.

* `Automaton.Silent q r` — `r` is reached from `q` by ε transitions alone;
* `Automaton.Path q w r` — some path from `q` to `r` spells `w`, its ε transitions skipped;
* `Automaton.Accepts w` — some path from the start state to an accepting state spells `w`;
* `Path.append`, `Path.split` — paths can be joined and cut;
* `mem_closure_iff` — the closure of some states holds what ε transitions reach from them;
* `Path.symbol_mem`, `Path.state_mem` — a path in a well-formed automaton spells symbols of the
  alphabet between states.
-/

namespace PatternAutomata

namespace Automaton

/-- The second state is reached from the first by ε transitions alone. -/
inductive Silent (A : Automaton) : State → State → Prop where
  | refl (q : State) : Silent A q q
  | step {q r s : State} : r ∈ A.ends q none → Silent A r s → Silent A q s

/-- Some path between two states spells a text, its ε transitions skipped. -/
inductive Path (A : Automaton) : State → Text → State → Prop where
  | refl (q : State) : Path A q [] q
  | silent {q r s : State} {w : Text} : r ∈ A.ends q none → Path A r w s → Path A q w s
  | read {q r s : State} {c : Symbol} {w : Text} :
      r ∈ A.ends q (some c) → Path A r w s → Path A q (c :: w) s

/-- Some path from the start state to an accepting state spells the text. -/
def Accepts (A : Automaton) (w : Text) : Prop :=
  ∃ q ∈ A.accepting, A.Path A.start w q

variable {A : Automaton} {q r s : State} {v w : Text}

theorem Silent.trans (h : A.Silent q r) (k : A.Silent r s) : A.Silent q s := by
  induction h with
  | refl _ => exact k
  | step hr _ ih => exact .step hr (ih k)

theorem Silent.path (h : A.Silent q r) (k : A.Path r w s) : A.Path q w s := by
  induction h with
  | refl _ => exact k
  | step hr _ ih => exact .silent hr (ih k)

/-- Two paths that meet are one path. -/
theorem Path.append (h : A.Path q v r) (k : A.Path r w s) : A.Path q (v ++ w) s := by
  induction h with
  | refl _ => exact k
  | silent hr _ ih => exact .silent hr (ih k)
  | read hr _ ih => exact .read hr (ih k)

/-- A path that spells two texts in turn passes through a state between them. -/
theorem Path.split (h : A.Path q (v ++ w) s) : ∃ r, A.Path q v r ∧ A.Path r w s := by
  generalize hu : v ++ w = u at h
  induction h generalizing v with
  | refl q =>
    obtain ⟨rfl, rfl⟩ := List.append_eq_nil_iff.1 hu
    exact ⟨q, .refl q, .refl q⟩
  | silent hr _ ih =>
    obtain ⟨m, hv, hw⟩ := ih hu
    exact ⟨m, .silent hr hv, hw⟩
  | read hr tail ih =>
    cases v with
    | nil =>
      subst hu
      exact ⟨_, .refl _, .read hr tail⟩
    | cons d v =>
      obtain ⟨rfl, hu'⟩ := List.cons.inj hu
      obtain ⟨m, hv, hw⟩ := ih hu'
      exact ⟨m, .read hr hv, hw⟩

/-- A path in a well-formed automaton spells symbols of the alphabet. -/
theorem Path.symbol_mem (hA : A.WellFormed) (h : A.Path q w r) : ∀ c ∈ w, c ∈ A.alphabet := by
  induction h with
  | refl _ => exact fun c hc => absurd hc List.not_mem_nil
  | silent _ _ ih => exact ih
  | read hr _ ih =>
    intro c hc
    rcases List.mem_cons.1 hc with rfl | hc
    · exact (hA.fitsEntry_of_mem_ends hr).symbol_mem c rfl
    · exact ih c hc

/-- A path in a well-formed automaton that starts in a state ends in one. -/
theorem Path.state_mem (hA : A.WellFormed) (h : A.Path q w r) (hq : q ∈ A.states) :
    r ∈ A.states := by
  induction h with
  | refl _ => exact hq
  | silent hr _ ih => exact ih (hA.mem_states_of_mem_ends hr)
  | read hr _ ih => exact ih (hA.mem_states_of_mem_ends hr)

/-! ### The closure by paths -/

theorem Silent.tail (h : A.Silent q r) (hs : s ∈ A.ends r none) : A.Silent q s :=
  h.trans (.step hs (.refl s))

/-- The closure of some states holds what is reached from them by ε transitions alone. -/
theorem mem_closure_iff (hA : A.WellFormed) {states : SortedSet State} :
    q ∈ A.closure states ↔ ∃ r, r ∈ states ∧ A.Silent r q := by
  rw [closure, SortedSet.mem_ofList]
  constructor
  · intro h
    refine explore_induction (P := fun a => ∃ r, r ∈ states ∧ A.Silent r a)
      (fun a ha => ⟨a, ha, .refl a⟩) ?_ q h
    rintro a ⟨r, hr, hra⟩ b hb
    exact ⟨r, hr, hra.tail hb⟩
  · rintro ⟨r, hr, hrq⟩
    have closed : ∀ a ∈ explore A.silentEnds (states.size + A.states.size) states.toList,
        ∀ b ∈ A.silentEnds a,
          b ∈ explore A.silentEnds (states.size + A.states.size) states.toList :=
      explore_closed (fun a ha => List.mem_append_left A.states.toList ha)
        (fun a _ b hb => List.mem_append_right _ (hA.mem_states_of_mem_ends (q := a) hb))
        (by simp [SortedSet.size])
    have reached : ∀ {a b : State}, A.Silent a b →
        a ∈ explore A.silentEnds (states.size + A.states.size) states.toList →
        b ∈ explore A.silentEnds (states.size + A.states.size) states.toList := by
      intro a b hab
      induction hab with
      | refl _ => exact id
      | step hs _ ih => exact fun ha => ih (closed _ ha _ hs)
    exact reached hrq (mem_explore_of_mem hr)

end Automaton

end PatternAutomata
