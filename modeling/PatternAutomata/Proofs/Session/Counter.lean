import PatternAutomata.Session

/-!
# The counter never goes back

No operation takes back a state that it or an earlier one has handed out, also when it fails.

* `Fresh.Ascending` — an operation after which the counter is no lower than before;
* `Ascending.bind` — one such operation after another, and `ascending_…` — the operations;
* `Making.ascending_run`, `Asking.ascending_run` — what a step of a session does;
* `Session.counter_le_step` — a step does not take the counter back.
-/

namespace PatternAutomata

namespace Fresh

variable {α β : Type} {x : Fresh α} {f : α → Fresh β}

/-- After the operation the counter is no lower than before. -/
def Ascending (x : Fresh α) : Prop := ∀ counter, counter ≤ (x.runFrom counter).2

theorem Ascending.le_of_runFrom {outcome : Except Fault α} {counter next : State}
    (hx : Ascending x) (run : x.runFrom counter = (outcome, next)) : counter ≤ next := by
  have le := hx counter
  rw [run] at le
  exact le

theorem ascending_settled (x : Except Fault α) : Ascending (settled x) := fun _ => Int.le_refl _

theorem ascending_pure (a : α) : Ascending (pure a : Fresh α) := fun _ => Int.le_refl _

theorem ascending_reserve (n : Nat) : Ascending (reserve n) := by
  intro counter
  show counter ≤ counter + (n : Int)
  exact Int.le_add_of_nonneg_right (Int.natCast_nonneg n)

theorem ascending_fresh : Ascending fresh := ascending_reserve 1

theorem Ascending.bind (hx : Ascending x) (hf : ∀ a, Ascending (f a)) : Ascending (x >>= f) := by
  intro counter
  rw [runFrom_bind]
  cases run : x.runFrom counter with
  | mk outcome next =>
    have first := hx.le_of_runFrom run
    cases outcome with
    | error e => exact first
    | ok a => exact Int.le_trans first (hf a next)

theorem Ascending.map {g : α → β} (hx : Ascending x) : Ascending (g <$> x) := by
  intro counter
  rw [runFrom_map]
  exact hx counter

/-- Going on from what needs no states. -/
theorem ascending_settled_bind {y : Except Fault α} (hf : ∀ a, Ascending (f a)) :
    Ascending (settled y >>= f) :=
  (ascending_settled y).bind hf

end Fresh

open Fresh

/-! ### Operations on automata -/

namespace Automaton

theorem ascending_assembled (A : Automaton) : Ascending (assembled A) := ascending_settled _

theorem ascending_symbol (c : Symbol) : Ascending (symbol c) :=
  ascending_fresh.bind fun _ => ascending_fresh.bind fun _ => ascending_assembled _

theorem ascending_epsilon : Ascending epsilon :=
  ascending_fresh.bind fun _ => ascending_assembled _

theorem ascending_empty : Ascending empty :=
  ascending_fresh.bind fun _ => ascending_assembled _

theorem ascending_relabel (A : Automaton) : Ascending A.relabel := by
  refine (ascending_reserve _).bind fun base => ?_
  split
  · exact ascending_settled _
  · exact ascending_assembled _

theorem ascending_determinize (A : Automaton) : Ascending A.determinize :=
  (ascending_reserve _).bind fun _ => ascending_assembled _

theorem ascending_ensureDeterministic (A : Automaton) : Ascending A.ensureDeterministic := by
  unfold ensureDeterministic
  split
  · exact ascending_pure A
  · exact A.ascending_determinize

theorem ascending_pruned (A : Automaton) : Ascending A.pruned := ascending_settled _

theorem ascending_minimize (A : Automaton) : Ascending A.minimize :=
  A.ascending_ensureDeterministic.bind fun D => D.ascending_pruned.bind fun _ =>
    (ascending_reserve _).bind fun _ => ascending_assembled _

theorem ascending_apartFrom (A B : Automaton) : Ascending (B.apartFrom A) := by
  unfold apartFrom
  split
  · exact ascending_pure B
  · exact B.ascending_relabel

theorem ascending_conform (A result : Automaton) : Ascending (A.conform result) := by
  refine (ascending_assembled result).bind fun B => ?_
  split
  · exact B.ascending_determinize
  · exact ascending_pure B

theorem ascending_union (A B : Automaton) : Ascending (A.union B) :=
  (A.ascending_apartFrom B).bind fun _ => ascending_fresh.bind fun _ => A.ascending_conform _

theorem ascending_concatenate (A B : Automaton) : Ascending (A.concatenate B) :=
  (A.ascending_apartFrom B).bind fun _ => A.ascending_conform _

theorem ascending_star (A : Automaton) : Ascending A.star :=
  ascending_fresh.bind fun _ => A.ascending_conform _

end Automaton

/-! ### Construction and compilation -/

namespace Construction

theorem ascending_step (stack : List Automaton) (t : Token) : Ascending (step stack t) := by
  unfold step
  split
  · exact (Automaton.ascending_symbol _).bind fun _ => ascending_pure _
  · split
    · exact (Automaton.ascending_star _).bind fun _ => ascending_pure _
    · exact ascending_settled _
  · split
    · exact (Automaton.ascending_concatenate _ _).bind fun _ => ascending_pure _
    · exact ascending_settled _
  · split
    · exact (Automaton.ascending_union _ _).bind fun _ => ascending_pure _
    · exact ascending_settled _
  · exact ascending_settled _

theorem ascending_run (stack : List Automaton) (ts : List Token) : Ascending (run stack ts) := by
  induction ts generalizing stack with
  | nil => exact ascending_pure stack
  | cons t ts ih => exact (ascending_step stack t).bind ih

theorem ascending_result (stack : List Automaton) : Ascending (result stack) := by
  unfold result
  split
  · exact Automaton.ascending_epsilon
  · exact ascending_pure _
  · exact ascending_settled _

end Construction

theorem ascending_build (ts : List Token) : Ascending (build ts) :=
  (Construction.ascending_run [] ts).bind Construction.ascending_result

namespace Stages

theorem ascending_onlyIf {f : Fresh Automaton} (hf : Ascending f) (asked : Bool) :
    Ascending (onlyIf asked f) := by
  unfold onlyIf
  split
  · exact hf.map
  · exact ascending_pure none

theorem ascending_ofPattern (p : Text) (flags : Flags) : Ascending (ofPattern p flags) := by
  refine ascending_settled_bind fun tokens => (ascending_build tokens).bind fun nfa => ?_
  refine (ascending_onlyIf nfa.ascending_determinize _).bind fun dfa? => ?_
  exact (ascending_onlyIf (Automaton.ascending_minimize _) _).bind fun _ => ascending_pure _

end Stages

theorem ascending_compile (p : Text) (flags : Flags) : Ascending (compile p flags) :=
  (Stages.ascending_ofPattern p flags).bind fun _ => ascending_pure _

/-! ### Steps of a session -/

theorem Making.ascending_run (registers : Registers) (making : Making) :
    Ascending (making.run registers) := by
  cases making with
  | symbol t => exact ascending_settled_bind Automaton.ascending_symbol
  | epsilon => exact Automaton.ascending_epsilon
  | empty => exact Automaton.ascending_empty
  | build tokens => exact ascending_settled_bind ascending_build
  | compile pattern flags => exact ascending_compile pattern flags
  | union left right =>
    exact ascending_settled_bind fun A => ascending_settled_bind fun B => A.ascending_union B
  | concatenate left right =>
    exact ascending_settled_bind fun A => ascending_settled_bind fun B => A.ascending_concatenate B
  | star operand => exact ascending_settled_bind Automaton.ascending_star
  | relabel operand => exact ascending_settled_bind Automaton.ascending_relabel
  | determinize operand => exact ascending_settled_bind Automaton.ascending_determinize
  | minimize operand => exact ascending_settled_bind Automaton.ascending_minimize
  | prune operand => exact ascending_settled_bind Automaton.ascending_pruned
  | make blueprint => exact ascending_settled _

theorem Asking.ascending_run (registers : Registers) (asking : Asking) :
    Ascending (asking.run registers) := by
  cases asking with
  | about name query => exact ascending_settled _
  | freshStates n => exact (ascending_reserve n).bind fun _ => ascending_pure _
  | listText states => exact ascending_pure _

namespace Session

variable {s : Session} {name : Text} {making : Making} {A : Automaton} {e : Fault} {next : State}

/-- What is made is kept. -/
theorem step_keep_of_ok (run : (making.run s.registers).runFrom s.counter = (.ok A, next)) :
    s.step (.keep name making) = (.ok (.automaton A), ⟨s.registers.insert name A, next⟩) := by
  simp only [step, run]

/-- A step that fails keeps nothing. -/
theorem step_keep_of_error
    (run : (making.run s.registers).runFrom s.counter = (.error e, next)) :
    s.step (.keep name making) = (.error e, ⟨s.registers, next⟩) := by
  simp only [step, run]

/-- A step does not take the counter back, whether it fails or not. -/
theorem counter_le_step (s : Session) (step : Step) : s.counter ≤ (s.step step).2.counter := by
  cases step with
  | keep name making =>
    cases run : (making.run s.registers).runFrom s.counter with
    | mk outcome next =>
      have ascending := (making.ascending_run s.registers).le_of_runFrom run
      cases outcome with
      | ok A =>
        rw [step_keep_of_ok run]
        exact ascending
      | error e =>
        rw [step_keep_of_error run]
        exact ascending
  | ask asking => exact asking.ascending_run s.registers s.counter

end Session

end PatternAutomata
