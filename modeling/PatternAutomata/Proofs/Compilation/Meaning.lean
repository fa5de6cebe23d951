import PatternAutomata.Compilation.Stages
import PatternAutomata.Proofs.Automaton.Minimality
import PatternAutomata.Proofs.Compilation.Fragments
import PatternAutomata.Proofs.Pattern.Layout

/-!
# Compiling a pattern

A pattern of the grammar is compiled into an automaton that accepts what the pattern denotes,
whatever the flags ask for, and every other text is reported as a parse error.

* `Denotes.iff_matches` — a pattern denotes what the one expression that it spells matches;
* `exists_ofPostfix_of_inGrammar`, `inGrammar_of_ofPostfix` — the patterns of the grammar are those
  whose postfix tokens can be read back;
* `Stages.afterConstruction` — the stages after the construction;
* `Regex.exists_matches_mem` — no literal is useless;
* `exists_runFrom_construction`, `exists_runFrom_compile` — the automaton of a pattern of the
  grammar;
* `exists_error_of_not_inGrammar`, `exists_runFrom_compile_error` — the error of any other text.
-/

namespace PatternAutomata

open Automaton

variable {p w : Text} {r s : Regex} {tokens : List Token} {found : Option Regex}

/-! ### What a pattern denotes -/

/-- A pattern spells one expression only. -/
theorem Spells.tree_unique (hr : Spells .expression r p) (hs : Spells .expression s p) : r = s := by
  have same := Postfix.ofText_eq_of_spells hr
  rw [Postfix.ofText_eq_of_spells hs] at same
  injection same with same
  exact (Regex.postorder_injective same).symm

theorem denotes_nil_iff : Denotes [] w ↔ w = [] := by
  constructor
  · intro h
    rcases h with ⟨_, empty⟩ | ⟨r, spells, _⟩
    · exact empty
    · exact absurd rfl spells.ne_nil
  · intro h
    exact Or.inl ⟨rfl, h⟩

theorem Denotes.iff_matches (h : Spells .expression r p) : Denotes p w ↔ r.Matches w := by
  constructor
  · intro denotes
    rcases denotes with ⟨empty, _⟩ | ⟨s, spells, hw⟩
    · exact absurd empty h.ne_nil
    · rw [h.tree_unique spells]
      exact hw
  · intro hw
    exact Or.inr ⟨r, h, hw⟩

/-- The postfix tokens of a pattern of the grammar are read back as what it denotes. -/
theorem exists_ofPostfix_of_inGrammar (h : InGrammar p) :
    ∃ tokens found, Postfix.ofText p = .ok tokens ∧ Regex.ofPostfix tokens = .ok found ∧
      ∀ w, MatchesFound found w ↔ Denotes p w := by
  rcases h with rfl | ⟨r, hr⟩
  · exact ⟨[], none, rfl, rfl, fun w => denotes_nil_iff.symm⟩
  · exact ⟨r.postorder, some r, Postfix.ofText_eq_of_spells hr, Regex.ofPostfix_postorder r,
      fun w => (Denotes.iff_matches hr).symm⟩

theorem inGrammar_of_ofPostfix (written : Postfix.ofText p = .ok tokens)
    (back : Regex.ofPostfix tokens = .ok found) : InGrammar p := by
  cases found with
  | none =>
    rw [Regex.ofPostfix_eq_none_iff.1 back] at written
    exact Or.inl (Postfix.ofText_eq_nil_iff.1 written)
  | some r =>
    rw [Regex.ofPostfix_eq_some_iff.1 back] at written
    exact Or.inr ⟨r, Postfix.ofText_eq_postorder_iff.1 written⟩

/-! ### The stages after the construction -/

variable {A : Automaton} {flags : Flags} {counter next : State}

namespace Stages

/-- Goes on with a constructed automaton as the flags ask. -/
def afterConstruction (flags : Flags) (A : Automaton) : Fresh Automaton := do
  let dfa? ← onlyIf flags.shouldDeterminize A.determinize
  let minimal? ← onlyIf flags.shouldMinimize (dfa?.getD A).minimize
  return (minimal?.or dfa?).getD A

/-- A minimal automaton is made from the subset automaton. -/
theorem afterConstruction_eq (flags : Flags) (A : Automaton) :
    afterConstruction flags A =
      if flags.minimize then A.determinize >>= Automaton.minimize
      else if flags.determinize then A.determinize
      else pure A := by
  unfold afterConstruction onlyIf Flags.shouldDeterminize Flags.shouldMinimize
  cases flags.minimize with
  | true => simp
  | false =>
    cases flags.determinize with
    | true => simp
    | false => simp

/-- Compiling goes on with the automaton that has been built. -/
theorem runFrom_compile_eq (written : Postfix.ofText p = .ok tokens)
    (built : (build tokens).runFrom counter = (.ok A, next)) :
    (compile p flags).runFrom counter = (afterConstruction flags A).runFrom next := by
  unfold compile ofPattern afterConstruction
  simp only [bind_assoc, pure_bind, written, Except.mapError]
  rw [Fresh.runFrom_bind, Fresh.runFrom_settled]
  show (build tokens >>= _).runFrom counter = _
  rw [Fresh.runFrom_bind, built]
  rfl

/-- The stages keep the accepted texts. -/
theorem exists_runFrom_afterConstruction (hA : A.WellFormed) (flags : Flags) (counter : State) :
    ∃ B next, (afterConstruction flags A).runFrom counter = (.ok B, next) ∧ B.WellFormed ∧
      B.alphabet = A.alphabet ∧ ∀ w, B.Accepts w ↔ A.Accepts w := by
  have hD : (A.subsetAutomaton counter).IsDfa := isDfa_subsetAutomaton hA
  have accepts : ∀ w, (A.subsetAutomaton counter).Accepts w ↔ A.Accepts w :=
    accepts_subsetAutomaton hA
  rw [afterConstruction_eq]
  cases flags.minimize with
  | true =>
    obtain ⟨M, next, run, reduced, alphabet, same⟩ :=
      exists_runFrom_minimize hD.wellFormed (counter + A.subsets.length)
    refine ⟨M, next, ?_, reduced.isDfa.wellFormed, alphabet, fun w => (same w).trans (accepts w)⟩
    rw [if_pos rfl, Fresh.runFrom_bind, runFrom_determinize hA]
    exact run
  | false =>
    rw [if_neg Bool.false_ne_true]
    cases flags.determinize with
    | true => exact ⟨_, _, runFrom_determinize hA counter, hD.wellFormed, rfl, accepts⟩
    | false => exact ⟨A, counter, rfl, hA, rfl, fun _ => Iff.rfl⟩

/-- With the flag for minimal automata the subset automaton is minimized. -/
theorem runFrom_afterConstruction_minimize (hA : A.WellFormed) (asked : flags.minimize = true)
    {M : Automaton} {counter next : State}
    (minimized : (A.subsetAutomaton counter).minimize.runFrom (counter + A.subsets.length) =
      (.ok M, next)) :
    (afterConstruction flags A).runFrom counter = (.ok M, next) := by
  rw [afterConstruction_eq, if_pos asked, Fresh.runFrom_bind, runFrom_determinize hA]
  exact minimized

end Stages

/-! ### The automaton, or the error -/

/-- Every expression matches some text. -/
theorem Regex.exists_matches (r : Regex) : ∃ w, r.Matches w := by
  induction r with
  | literal c => exact ⟨[c], .literal c⟩
  | union r s ihr _ =>
    obtain ⟨w, hw⟩ := ihr
    exact ⟨w, .left hw⟩
  | concat r s ihr ihs =>
    obtain ⟨u, hu⟩ := ihr
    obtain ⟨v, hv⟩ := ihs
    exact ⟨u ++ v, .concat hu hv⟩
  | star r _ => exact ⟨[], .starNil r⟩

/-- Every literal of an expression occurs in a text that it matches. -/
theorem Regex.exists_matches_mem {c : Symbol} (h : Token.literal c ∈ r.postorder) :
    ∃ w, r.Matches w ∧ c ∈ w := by
  induction r with
  | literal d =>
    rw [postorder, List.mem_singleton, Token.literal.injEq] at h
    subst h
    exact ⟨[c], .literal c, List.mem_singleton.2 rfl⟩
  | union r s ihr ihs =>
    have h : Token.literal c ∈ r.postorder ∨ Token.literal c ∈ s.postorder := by
      simpa [postorder] using h
    rcases h with h | h
    · obtain ⟨w, hw, hc⟩ := ihr h
      exact ⟨w, .left hw, hc⟩
    · obtain ⟨w, hw, hc⟩ := ihs h
      exact ⟨w, .right hw, hc⟩
  | concat r s ihr ihs =>
    have h : Token.literal c ∈ r.postorder ∨ Token.literal c ∈ s.postorder := by
      simpa [postorder] using h
    rcases h with h | h
    · obtain ⟨u, hu, hc⟩ := ihr h
      obtain ⟨v, hv⟩ := s.exists_matches
      exact ⟨u ++ v, .concat hu hv, List.mem_append_left v hc⟩
    · obtain ⟨u, hu⟩ := r.exists_matches
      obtain ⟨v, hv, hc⟩ := ihs h
      exact ⟨u ++ v, .concat hu hv, List.mem_append_right u hc⟩
  | star r ih =>
    have h : Token.literal c ∈ r.postorder := by
      simpa [postorder] using h
    obtain ⟨w, hw, hc⟩ := ih h
    exact ⟨w ++ [], hw.starAppend (.starNil r), List.mem_append_left [] hc⟩

/-- A pattern of the grammar is constructed as an automaton that accepts what it denotes, over the
symbols that occur in these texts. -/
theorem exists_runFrom_construction (h : InGrammar p) (counter : State) :
    ∃ tokens A next, Postfix.ofText p = .ok tokens ∧
      (build tokens).runFrom counter = (.ok A, next) ∧ A.WellFormed ∧
      (∀ w, A.Accepts w ↔ Denotes p w) ∧ ∀ c, c ∈ A.alphabet ↔ ∃ w, Denotes p w ∧ c ∈ w := by
  obtain ⟨tokens, found, written, back, denotes⟩ := exists_ofPostfix_of_inGrammar h
  obtain ⟨A, next, built, fragment⟩ := exists_runFrom_build back counter
  have accepts : ∀ w, A.Accepts w ↔ Denotes p w := by
    intro w
    rw [fragment.accepts_iff, denotes]
  refine ⟨tokens, A, next, written, built, fragment.wellFormed, accepts, ?_⟩
  intro c
  constructor
  · intro hc
    have literal := (fragment.mem_alphabet_iff c).1 hc
    cases found with
    | none =>
      rw [Regex.ofPostfix_eq_none_iff.1 back] at literal
      exact absurd literal List.not_mem_nil
    | some r =>
      rw [Regex.ofPostfix_eq_some_iff.1 back] at literal
      obtain ⟨w, hw, hc⟩ := Regex.exists_matches_mem literal
      exact ⟨w, (denotes w).1 hw, hc⟩
  · intro h
    obtain ⟨w, hw, hc⟩ := h
    exact ((accepts w).2 hw).over fragment.wellFormed c hc

/-- A pattern of the grammar is compiled into a well-formed automaton that accepts what it
denotes. -/
theorem exists_runFrom_compile (h : InGrammar p) (flags : Flags) (counter : State) :
    ∃ A next, (compile p flags).runFrom counter = (.ok A, next) ∧ A.WellFormed ∧
      ∀ w, A.Accepts w ↔ Denotes p w := by
  obtain ⟨tokens, A, next, written, built, hA, accepts, _⟩ := exists_runFrom_construction h counter
  obtain ⟨B, last, run, wellFormed, _, same⟩ :=
    Stages.exists_runFrom_afterConstruction hA flags next
  refine ⟨B, last, (Stages.runFrom_compile_eq written built).trans run, wellFormed, ?_⟩
  intro w
  rw [same, accepts]

variable {e : ParseError}

/-- What is wrong with the parentheses of a pattern is reported before any state is taken. -/
theorem runFrom_compile_of_ofText_error (failed : Postfix.ofText p = .error e) (flags : Flags)
    (counter : State) : (compile p flags).runFrom counter = (.error (.parse e), counter) := by
  unfold compile Stages.ofPattern
  simp only [bind_assoc, pure_bind, failed]
  rfl

/-- What keeps the postfix tokens of a pattern from being read back is reported. -/
theorem exists_runFrom_compile_of_ofPostfix_error (written : Postfix.ofText p = .ok tokens)
    (failed : Regex.ofPostfix tokens = .error e) (flags : Flags) (counter : State) :
    ∃ next, (compile p flags).runFrom counter = (.error (.parse e), next) := by
  obtain ⟨next, built⟩ := exists_runFrom_build_error failed counter
  refine ⟨next, ?_⟩
  unfold compile Stages.ofPattern
  simp only [bind_assoc, pure_bind, written]
  show (build tokens >>= _).runFrom counter = _
  rw [Fresh.runFrom_bind, built]

/-- Any other text is reported as a parse error, which depends on the text alone. -/
theorem exists_error_of_not_inGrammar (h : ¬ InGrammar p) :
    ∃ e, ∀ flags counter, ∃ next,
      (compile p flags).runFrom counter = (.error (.parse e), next) := by
  cases written : Postfix.ofText p with
  | error e =>
    exact ⟨e, fun flags counter => ⟨counter, runFrom_compile_of_ofText_error written flags counter⟩⟩
  | ok tokens =>
    cases back : Regex.ofPostfix tokens with
    | ok found => exact absurd (inGrammar_of_ofPostfix written back) h
    | error e => exact ⟨e, exists_runFrom_compile_of_ofPostfix_error written back⟩

/-- Any other text is reported as a parse error. -/
theorem exists_runFrom_compile_error (h : ¬ InGrammar p) (flags : Flags) (counter : State) :
    ∃ e next, (compile p flags).runFrom counter = (.error (.parse e), next) := by
  obtain ⟨e, failed⟩ := exists_error_of_not_inGrammar h
  exact ⟨e, failed flags counter⟩

/-- **Meaning.**  Whatever the flags ask for, the automaton of a pattern accepts exactly the texts
that the pattern denotes, which are those that its expression matches. -/
theorem compile_accepts_denoted (h : InGrammar p) (flags : Flags) (counter : State) :
    ∃ A next, (compile p flags).runFrom counter = (.ok A, next) ∧
      (∀ w, A.accepts w = true ↔ Denotes p w) ∧
      ∀ r, Spells .expression r p → ∀ w, A.accepts w = true ↔ r.Matches w := by
  obtain ⟨A, next, run, wellFormed, accepts⟩ := exists_runFrom_compile h flags counter
  refine ⟨A, next, run, ?_, ?_⟩
  · intro w
    rw [accepts_iff wellFormed, accepts]
  · intro r hr w
    rw [accepts_iff wellFormed, accepts, Denotes.iff_matches hr]

/-- An iteration inside an iteration. -/
theorem spells_nested_star :
    Spells .expression (.star (.concat (.star (.literal 'a')) (.literal 'b'))) "(a*b)*".toList := by
  have a : Spells .factor (.literal 'a') ['a'] := .ofAtom (.literal rfl)
  have b : Spells .factor (.literal 'b') ['b'] := .ofAtom (.literal rfl)
  have body : Spells .expression _ ("a*b".toList) := .ofTerm (.concat (.ofFactor a.star) b)
  exact .ofTerm (.ofFactor (Spells.ofAtom body.group).star)

theorem compile_nested_star_accepts_denoted :
    InGrammar "(a*b)*".toList ∧
      ∃ A next, (compile "(a*b)*".toList { minimize := true }).runFrom 7 = (.ok A, next) ∧
        A.accepts "aabb".toList = true := by
  have pattern : InGrammar "(a*b)*".toList := Or.inr ⟨_, spells_nested_star⟩
  obtain ⟨A, next, run, _, accepts⟩ := compile_accepts_denoted pattern { minimize := true } 7
  refine ⟨pattern, A, next, run, (accepts _ spells_nested_star _).2 ?_⟩
  have a : (Regex.literal 'a').Matches ['a'] := .literal 'a'
  have b : (Regex.literal 'b').Matches ['b'] := .literal 'b'
  have first := Regex.Matches.concat (a.starAppend (a.starAppend (.starNil _))) b
  have second := Regex.Matches.concat (Regex.Matches.starNil (.literal 'a')) b
  exact first.starAppend (second.starAppend (.starNil _))

/-- **The parser.**  Compiling gives an automaton exactly for the patterns of the grammar, and
reports every other text as a parse error.  A text has the postfix tokens of an expression exactly
if the grammar spells the expression that way, and so has every layout of the expression, with the
parentheses that precedence and left associativity ask for and any others. -/
theorem parser_accepts_grammar :
    (∀ (p : Text) (flags : Flags) (counter : State),
      (∃ A next, (compile p flags).runFrom counter = (.ok A, next)) ↔ InGrammar p) ∧
    (∀ (p : Text) (flags : Flags) (counter : State), ¬ InGrammar p →
      ∃ e next, (compile p flags).runFrom counter = (.error (.parse e), next)) ∧
    (∀ (r : Regex) (p : Text), Postfix.ofText p = .ok r.postorder ↔ Spells .expression r p) ∧
    ∀ x : Layout, x.Plain → Postfix.ofText (x.render .expression) = .ok x.tree.postorder := by
  refine ⟨?_, ?_, fun r p => Postfix.ofText_eq_postorder_iff, fun x => Layout.ofText_render⟩
  · intro p flags counter
    constructor
    · intro h
      obtain ⟨A, next, run⟩ := h
      by_cases inside : InGrammar p
      · exact inside
      · obtain ⟨e, last, failed⟩ := exists_runFrom_compile_error inside flags counter
        rw [run] at failed
        cases failed
    · intro h
      obtain ⟨A, next, run, _⟩ := exists_runFrom_compile h flags counter
      exact ⟨A, next, run⟩
  · intro p flags counter outside
    exact exists_runFrom_compile_error outside flags counter

theorem parser_rejects_dangling_star :
    (¬ InGrammar "a|*".toList ∧
      ∃ e next, (compile "a|*".toList {}).runFrom 3 = (.error (.parse e), next)) ∧
    (Layout.group (.star (.group (.literal 'a')))).Plain ∧
      Postfix.ofText "((a)*)".toList = .ok [.literal 'a', .operator .star] := by
  obtain ⟨compiled, rejected, _, rendered⟩ := parser_accepts_grammar
  have outside : ¬ InGrammar "a|*".toList := by
    intro inside
    obtain ⟨A, next, run⟩ := (compiled "a|*".toList {} 3).2 inside
    have failed : (compile "a|*".toList {}).runFrom 3 =
        (.error (.parse (.missingOperand .union)), 6) := rfl
    rw [failed] at run
    cases run
  have plain : (Layout.group (.star (.group (.literal 'a')))).Plain := rfl
  exact ⟨⟨outside, rejected _ {} 3 outside⟩, plain, rendered _ plain⟩

end PatternAutomata
