import PatternAutomata.Proofs.Compilation.Thompson

/-!
# Compiling is compositional

A pattern that is put together from patterns in parentheses is read as a whole and built on one
stack.  The automaton is the same, state by state, as the composition of the automata into which its
parts are compiled one after the other.

* `parenthesized` — a pattern in parentheses;
* `compileBoth` — two patterns compiled one after the other, and their automata composed;
* `Spells.runFrom_compileBoth` — the two automata of such a run;
* `compiling_is_compositional` — juxtaposition, `|` and `*`.
-/

namespace PatternAutomata

open Automaton

variable {p q : Text} {r s : Regex}

/-- A pattern in parentheses. -/
def parenthesized (p : Text) : Text := '(' :: p ++ [')']

/-- Compiles two patterns, the second from the state where the first leaves off, and composes their
automata. -/
def compileBoth (compose : Automaton → Automaton → Fresh Automaton) (p q : Text) (flags : Flags) :
    Fresh Automaton := do
  let A ← compile p flags
  let B ← compile q flags
  compose A B

/-- The automata of the patterns are those of the expressions that they spell. -/
theorem Spells.runFrom_compileBoth (hp : Spells .expression r p) (hq : Spells .expression s q)
    (compose : Automaton → Automaton → Fresh Automaton) (debug : Bool) (counter : State) :
    (compileBoth compose p q { debug := debug }).runFrom counter =
      (compose (r.automaton counter) (s.automaton (counter + r.size))).runFrom
        (counter + r.size + s.size) := by
  rw [compileBoth, Fresh.runFrom_bind, hp.runFrom_compile]
  show (compile q { debug := debug } >>= _).runFrom (counter + r.size) = _
  rw [Fresh.runFrom_bind, hq.runFrom_compile]

/-- **Compositionality.**  Let two patterns of the grammar not be empty.  Both of them in
parentheses, side by side, are compiled into the automaton that compiling the first, then the
second, and concatenating the results gives, with the same states; with `|` between them, into the
union of these; and the first with `*` after it into its iteration.  All take as many states. -/
theorem compiling_is_compositional (hp : InGrammar p) (hq : InGrammar q) (p_ne_nil : p ≠ [])
    (q_ne_nil : q ≠ []) (debug : Bool) (counter : State) :
    (∃ C next,
      (compile (parenthesized p ++ parenthesized q) { debug := debug }).runFrom counter
        = (.ok C, next) ∧
      (compileBoth Automaton.concatenate p q { debug := debug }).runFrom counter
        = (.ok C, next)) ∧
    (∃ C next,
      (compile (parenthesized p ++ '|' :: parenthesized q) { debug := debug }).runFrom counter
        = (.ok C, next) ∧
      (compileBoth Automaton.union p q { debug := debug }).runFrom counter = (.ok C, next)) ∧
    ∃ C next,
      (compile (parenthesized p ++ ['*']) { debug := debug }).runFrom counter = (.ok C, next) ∧
      (compile p { debug := debug } >>= Automaton.star).runFrom counter = (.ok C, next) := by
  obtain ⟨r, hr⟩ := hp.resolve_left p_ne_nil
  obtain ⟨s, hs⟩ := hq.resolve_left q_ne_nil
  have left := r.fragment_automaton counter
  have right := s.fragment_automaton (counter + r.size)
  refine ⟨?_, ?_, ?_⟩
  · have whole : Spells .expression (.concat r s) (parenthesized p ++ parenthesized q) :=
      .ofTerm (.concat (hr.grouped .term) (hs.grouped .factor))
    refine ⟨_, _, whole.runFrom_compile debug counter, ?_⟩
    rw [hr.runFrom_compileBoth hs, left.runFrom_concatenate right, Regex.add_size_concat]
    rfl
  · have whole : Spells .expression (.union r s) (parenthesized p ++ '|' :: parenthesized q) :=
      .union (hr.grouped .expression) (hs.grouped .term)
    refine ⟨_, _, whole.runFrom_compile debug counter, ?_⟩
    rw [hr.runFrom_compileBoth hs, left.runFrom_union right, Regex.add_size_union]
    rfl
  · have whole : Spells .expression (.star r) (parenthesized p ++ ['*']) :=
      .ofTerm (.ofFactor (.star (hr.grouped .factor)))
    refine ⟨_, _, whole.runFrom_compile debug counter, ?_⟩
    rw [Fresh.runFrom_bind, hr.runFrom_compile, Regex.add_size_star]
    exact left.runFrom_star

theorem compiling_of_union_and_star_is_compositional :
    InGrammar "a|b".toList ∧ InGrammar "c*".toList ∧
      (∃ C, (compile "(a|b)(c*)".toList {}).runFrom 5 = (.ok C, 13) ∧
        (compileBoth Automaton.concatenate "a|b".toList "c*".toList {}).runFrom 5 = (.ok C, 13)) ∧
      (∃ C, (compile "(a|b)|(c*)".toList {}).runFrom 5 = (.ok C, 14) ∧
        (compileBoth Automaton.union "a|b".toList "c*".toList {}).runFrom 5 = (.ok C, 14)) ∧
      ∃ C, (compile "(a|b)*".toList {}).runFrom 5 = (.ok C, 11) ∧
        (compile "a|b".toList {} >>= Automaton.star).runFrom 5 = (.ok C, 11) := by
  have letter : ∀ c, IsLiteral c → Spells .factor (.literal c) [c] :=
    fun c hc => .ofAtom (.literal hc)
  have hp : InGrammar "a|b".toList :=
    Or.inr ⟨_, .union (.ofTerm (.ofFactor (letter 'a' rfl))) (.ofFactor (letter 'b' rfl))⟩
  have hq : InGrammar "c*".toList := Or.inr ⟨_, .ofTerm (.ofFactor (.star (letter 'c' rfl)))⟩
  obtain ⟨⟨C, i, whole, parts⟩, ⟨D, j, wholeD, partsD⟩, E, k, wholeE, partsE⟩ :=
    compiling_is_compositional hp hq (by decide) (by decide) false 5
  have ends : i = 13 ∧ j = 14 ∧ k = 11 := by
    refine ⟨?_, ?_, ?_⟩
    · exact congrArg Prod.snd whole.symm
    · exact congrArg Prod.snd wholeD.symm
    · exact congrArg Prod.snd wholeE.symm
  obtain ⟨rfl, rfl, rfl⟩ := ends
  exact ⟨hp, hq, ⟨C, whole, parts⟩, ⟨D, wholeD, partsD⟩, E, wholeE, partsE⟩

end PatternAutomata
