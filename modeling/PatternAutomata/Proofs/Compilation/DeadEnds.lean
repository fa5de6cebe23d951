import PatternAutomata.Proofs.Automaton.Trim
import PatternAutomata.Proofs.Compilation.Meaning
import PatternAutomata.Proofs.Compilation.Thompson

/-!
# Compiled automata have no dead ends

The automaton that a pattern is compiled into has no state that is never reached and none from which
nothing is ever accepted, and no symbol that no accepted text holds.  So reading a text stops early
only where no accepted text goes on, and the deterministic automaton has one dead end at most, the
state of the empty set.

* `Regex.trim_automaton`, `trim_automatonFound` — the automata of expressions are trim;
* `exists_accepts_mem` — none of their symbols is useless;
* `compiled_automata_have_no_dead_ends` — what that means for compiled patterns.
-/

namespace PatternAutomata

open Automaton

variable {p : Text} {ts : List Token} {found : Option Regex} {c : Symbol}

/-- The automaton of an expression is trim. -/
theorem Regex.trim_automaton (r : Regex) (low : State) : (r.automaton low).Trim := by
  induction r generalizing low with
  | literal c => exact (trim_symbolAt c low).compact
  | union r s ihr ihs =>
    have hr := r.fragment_automaton low
    have hs := s.fragment_automaton (low + r.size)
    have trim := trim_unionFrom hr.wellFormed (ihr low) hs.wellFormed (ihs _) (hr.disjoint hs)
      (hr.high_not_mem (Int.le_of_lt hs.lt)) (hs.high_not_mem (Int.le_refl _))
    exact trim.compact
  | concat r s ihr ihs =>
    have hr := r.fragment_automaton low
    have hs := s.fragment_automaton (low + r.size)
    have trim := trim_followedBy hr.wellFormed (ihr low) hs.wellFormed (ihs _) (hr.disjoint hs)
    exact trim.compact
  | star r ih =>
    have hr := r.fragment_automaton low
    have trim := trim_iteratedFrom hr.wellFormed (ih low) (hr.high_not_mem (Int.le_refl _))
    exact trim.compact

theorem trim_automatonFound (found : Option Regex) (low : State) :
    (automatonFound found low).Trim := by
  cases found with
  | none => exact (trim_epsilonAt low).compact
  | some r => exact r.trim_automaton low

/-- Every symbol of a built automaton occurs in some text that it accepts. -/
theorem exists_accepts_mem (back : Regex.ofPostfix ts = .ok found) (low : State)
    (hc : c ∈ (automatonFound found low).alphabet) :
    ∃ w, (automatonFound found low).Accepts w ∧ c ∈ w := by
  have fragment := fragment_automatonFound back low
  have literal := (fragment.mem_alphabet_iff c).1 hc
  rw [Regex.eq_of_ofPostfix back] at literal
  cases found with
  | none => exact absurd literal List.not_mem_nil
  | some r =>
    obtain ⟨w, hw, hc⟩ := Regex.exists_matches_mem literal
    exact ⟨w, (fragment.accepts_iff w).2 hw, hc⟩

/-- With the flag for deterministic automata the subset automaton of what is read back is the result
of compiling. -/
theorem exists_runFrom_compile_determinize (written : Postfix.ofText p = .ok ts)
    (back : Regex.ofPostfix ts = .ok found) (debug : Bool) (counter : State) :
    ∃ base next, (compile p { determinize := true, debug := debug }).runFrom counter =
      (.ok ((automatonFound found counter).subsetAutomaton base), next) := by
  have hA := (fragment_automatonFound back counter).wellFormed
  rw [Stages.runFrom_compile_eq written (runFrom_build back counter), Stages.afterConstruction_eq]
  exact ⟨_, _, runFrom_determinize hA _⟩

/-- **Dead ends.**  Every state of the automaton of a pattern lies on a path from the start state to
an accepting state, and every symbol occurs in some accepted text.  So the set of states after a text
is empty exactly if no accepted text begins with it, and the deterministic automaton has a state
named after the empty set exactly if some text over the alphabet begins no accepted text.  This state
is then the only one from which no accepting state is reached. -/
theorem compiled_automata_have_no_dead_ends (h : InGrammar p) (debug : Bool)
    (counter other : State) :
    ∃ A next D last,
      (compile p { debug := debug }).runFrom counter = (.ok A, next) ∧
      (compile p { determinize := true, debug := debug }).runFrom other = (.ok D, last) ∧
      (∀ q ∈ A.states, ∃ u v, ∃ r ∈ A.accepting, A.Path A.start u q ∧ A.Path q v r) ∧
      (∀ c ∈ A.alphabet, ∃ w, A.accepts w = true ∧ c ∈ w) ∧
      (∀ w, A.statesAfter w = ∅ ↔ ∀ v, A.accepts (w ++ v) = false) ∧
      D.alphabet = A.alphabet ∧
      ((∃ q ∈ D.states, D.names.get? q = some deadName) ↔
        ∃ w, A.Over w ∧ ∀ v, A.accepts (w ++ v) = false) ∧
      (∀ q ∈ D.states, (∀ v r, D.Path q v r → r ∉ D.accepting) ↔
        D.names.get? q = some deadName) ∧
      ∀ q ∈ D.states, ∀ r ∈ D.states, D.names.get? q = some deadName →
        D.names.get? r = some deadName → q = r := by
  obtain ⟨tokens, found, written, back, _⟩ := exists_ofPostfix_of_inGrammar h
  have first := fragment_automatonFound back counter
  have second := fragment_automatonFound back other
  have trim := trim_automatonFound found counter
  have rejects : ∀ w, (automatonFound found counter).accepts w = false ↔
      ¬ (automatonFound found counter).Accepts w := by
    intro w
    rw [← Automaton.accepts_iff first.wellFormed, Bool.not_eq_true]
  have same : ∀ w, (automatonFound found counter).Accepts w ↔
      (automatonFound found other).Accepts w := by
    intro w
    rw [first.accepts_iff, second.accepts_iff]
  have alphabet : (automatonFound found other).alphabet = (automatonFound found counter).alphabet :=
    SortedSet.ext fun c => (second.mem_alphabet_iff c).trans (first.mem_alphabet_iff c).symm
  obtain ⟨base, last, run⟩ := exists_runFrom_compile_determinize written back debug other
  refine ⟨automatonFound found counter, _, (automatonFound found other).subsetAutomaton base, last,
    runFrom_compile_plain written back debug counter, run, ?_, ?_, ?_, alphabet, ?_, ?_, ?_⟩
  · intro q hq
    obtain ⟨u, before⟩ := trim.reached q hq
    obtain ⟨v, r, hr, after⟩ := trim.leads q hq
    exact ⟨u, v, r, hr, before, after⟩
  · intro c hc
    obtain ⟨w, hw, hc⟩ := exists_accepts_mem back counter hc
    exact ⟨w, (Automaton.accepts_iff first.wellFormed).2 hw, hc⟩
  · intro w
    simp only [rejects]
    exact trim.statesAfter_eq_empty_iff first.wellFormed
  · rw [(trim_automatonFound found other).exists_deadName_iff second.wellFormed]
    simp only [rejects, same, over_iff_of_alphabet alphabet]
  · intro q hq
    exact (trim_automatonFound found other).hopeless_iff second.wellFormed hq
  · intro q hq r hr nameQ nameR
    exact eq_of_names_subsetAutomaton_eq hq hr (nameQ.trans nameR.symm)

/-- No text that `ab` denotes begins with `b`, so its deterministic automaton has a dead end. -/
theorem compiled_ab_has_one_dead_end :
    InGrammar "ab".toList ∧
      ∃ D last, (compile "ab".toList { determinize := true }).runFrom 8 = (.ok D, last) ∧
        ∃ q ∈ D.states, D.names.get? q = some deadName ∧
          ∀ v r, D.Path q v r → r ∉ D.accepting := by
  have a : Spells .factor (.literal 'a') ['a'] := .ofAtom (.literal rfl)
  have b : Spells .factor (.literal 'b') ['b'] := .ofAtom (.literal rfl)
  have pattern : InGrammar "ab".toList := Or.inr ⟨_, .ofTerm (.concat (.ofFactor a) b)⟩
  obtain ⟨A, next, D, last, run, determinized, _, _, nowhere, _, dead, hopeless, _⟩ :=
    compiled_automata_have_no_dead_ends pattern false 3 8
  have plain : (compile "ab".toList {}).runFrom 3 =
      (.ok ((Regex.concat (.literal 'a') (.literal 'b')).automaton 3), 7) := rfl
  rw [plain] at run
  cases run
  have letter : ((Regex.concat (.literal 'a') (.literal 'b')).automaton 3).Over ['b'] :=
    over_cons.2 ⟨by decide, over_nil _⟩
  obtain ⟨q, hq, name⟩ := dead.2 ⟨['b'], letter, (nowhere ['b']).1 (by decide)⟩
  exact ⟨pattern, D, last, determinized, q, hq, name, (hopeless q hq).2 name⟩

end PatternAutomata
