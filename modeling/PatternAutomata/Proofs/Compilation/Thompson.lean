import PatternAutomata.Proofs.Compilation.Fragments
import PatternAutomata.Proofs.Compilation.Meaning

/-!
# The automaton of an expression

The automaton that is built from the postfix tokens of an expression, written down by recursion on
the expression: the states of the left operand come first, then those of the right one, and then the
new start state, if there is one.

* `Regex.size` — the number of states; `Regex.automaton` — the automaton on the states from `low`;
* `Regex.fragment_automaton` — it has these states and accepts what the expression matches;
* `Regex.runFrom_postorder` — taking the postfix tokens of an expression pushes its automaton;
* `automatonFound`, `runFrom_build` — the automaton of a whole postfix sequence;
* `runFrom_compile_plain`, `Spells.runFrom_compile` — that of a pattern.
-/

namespace PatternAutomata

open Automaton

variable {found : Option Regex} {ts : List Token} {p : Text}

namespace Regex

/-- The number of states that the automaton of an expression takes. -/
def size : Regex → Nat
  | .literal _ => 2
  | .union r s => r.size + s.size + 1
  | .concat r s => r.size + s.size
  | .star r => r.size + 1

/-- The automaton of an expression on the states from `low`. -/
def automaton : Regex → (low : State) → Automaton
  | .literal c, low => (symbolAt c low).compact
  | .union r s, low =>
    (unionFrom (low + r.size + s.size) (r.automaton low) (s.automaton (low + r.size))).compact
  | .concat r s, low => (followedBy (r.automaton low) (s.automaton (low + r.size))).compact
  | .star r, low => (iteratedFrom (low + r.size) (r.automaton low)).compact

theorem add_size_literal (c : Symbol) (low : Int) : low + (literal c).size = low + 1 + 1 := by
  rw [size]
  omega

theorem add_size_union (r s : Regex) (low : Int) :
    low + (r.union s).size = low + r.size + s.size + 1 := by
  rw [size]
  omega

theorem add_size_concat (r s : Regex) (low : Int) :
    low + (r.concat s).size = low + r.size + s.size := by
  rw [size]
  omega

theorem add_size_star (r : Regex) (low : Int) : low + r.star.size = low + r.size + 1 := by
  rw [size]
  omega

/-- The automaton of an expression is the fragment between `low` and the states after it. -/
theorem fragment_automaton (r : Regex) (low : State) :
    Fragment r.Matches r.postorder low (low + r.size) (r.automaton low) := by
  induction r generalizing low with
  | literal c =>
    rw [add_size_literal]
    exact fragment_symbol c low
  | union r s ihr ihs =>
    rw [add_size_union]
    exact (ihr low).union (ihs (low + r.size))
  | concat r s ihr ihs =>
    rw [add_size_concat]
    exact (ihr low).concatenate (ihs (low + r.size))
  | star r ih =>
    rw [add_size_star]
    exact (ih low).star

/-- Taking the postfix tokens of an expression pushes its automaton on the stack. -/
theorem runFrom_postorder (r : Regex) (stack : List Automaton) (low : State) :
    (Construction.run stack r.postorder).runFrom low =
      (.ok (r.automaton low :: stack), low + r.size) := by
  induction r generalizing stack low with
  | literal c =>
    rw [postorder, Construction.run, Construction.step]
    simp only [Fresh.runFrom_bind, runFrom_symbol]
    rw [add_size_literal]
    rfl
  | union r s ihr ihs =>
    have combined := (r.fragment_automaton low).runFrom_union (s.fragment_automaton (low + r.size))
    rw [postorder, Construction.run_append, Construction.run_append]
    simp only [Fresh.runFrom_bind, ihr, ihs, Construction.run, Construction.step, combined]
    rw [add_size_union]
    rfl
  | concat r s ihr ihs =>
    have combined :=
      (r.fragment_automaton low).runFrom_concatenate (s.fragment_automaton (low + r.size))
    rw [postorder, Construction.run_append, Construction.run_append]
    simp only [Fresh.runFrom_bind, ihr, ihs, Construction.run, Construction.step, combined]
    rw [add_size_concat]
    rfl
  | star r ih =>
    have combined := (r.fragment_automaton low).runFrom_star
    rw [postorder, Construction.run_append]
    simp only [Fresh.runFrom_bind, ih, Construction.run, Construction.step, combined]
    rw [add_size_star]
    rfl

theorem names_automaton (r : Regex) (low : State) : (r.automaton low).names = ∅ := by
  cases r with
  | literal c => rfl
  | union r s => rfl
  | concat r s => rfl
  | star r => rfl

end Regex

/-! ### Whole sequences -/

/-- The number of states that the automaton of a postfix sequence takes. -/
def sizeFound : Option Regex → Nat
  | none => 1
  | some r => r.size

/-- The automaton of what is read back from a postfix sequence, on the states from `low`. -/
def automatonFound : Option Regex → (low : State) → Automaton
  | none, low => (epsilonAt low).compact
  | some r, low => r.automaton low

theorem fragment_automatonFound (back : Regex.ofPostfix ts = .ok found) (low : State) :
    Fragment (MatchesFound found) ts low (low + sizeFound found) (automatonFound found low) := by
  rw [Regex.eq_of_ofPostfix back]
  cases found with
  | none => exact fragment_epsilon low
  | some r => exact r.fragment_automaton low

theorem names_automatonFound (found : Option Regex) (low : State) :
    (automatonFound found low).names = ∅ := by
  cases found with
  | none => rfl
  | some r => exact r.names_automaton low

/-- Building a postfix sequence makes the automaton of what is read back from it. -/
theorem runFrom_build (back : Regex.ofPostfix ts = .ok found) (low : State) :
    (build ts).runFrom low = (.ok (automatonFound found low), low + sizeFound found) := by
  rw [Regex.eq_of_ofPostfix back, build, Fresh.runFrom_bind]
  cases found with
  | none => exact runFrom_epsilon low
  | some r =>
    rw [Option.map_some, Option.getD_some, r.runFrom_postorder]
    rfl

/-! ### Whole patterns -/

/-- With no flag the automaton of what is read back is the result of compiling. -/
theorem runFrom_compile_plain (written : Postfix.ofText p = .ok ts)
    (back : Regex.ofPostfix ts = .ok found) (debug : Bool) (counter : State) :
    (compile p { debug := debug }).runFrom counter =
      (.ok (automatonFound found counter), counter + sizeFound found) := by
  rw [Stages.runFrom_compile_eq written (runFrom_build back counter), Stages.afterConstruction_eq]
  rfl

/-- A pattern that spells an expression is compiled into the automaton of the expression. -/
theorem Spells.runFrom_compile {r : Regex} (h : Spells .expression r p) (debug : Bool)
    (counter : State) :
    (compile p { debug := debug }).runFrom counter =
      (.ok (r.automaton counter), counter + r.size) :=
  runFrom_compile_plain (Postfix.ofText_eq_of_spells h) (Regex.ofPostfix_postorder r) debug counter

end PatternAutomata
