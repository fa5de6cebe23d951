import PatternAutomata.Proofs.Pattern.Precedence
import PatternAutomata.Proofs.Pattern.Readback
import PatternAutomata.Proofs.Pattern.Rearrangement

/-!
# Only patterns of the grammar have operands for all operators

The rearrangement does not look whether its operators have operands.  But a concatenation is put in
only between two operands, so a token in a wrong place is never made up for: there are at most as
many literals as operators with two operands, and one more where an operand has just ended, and as
many as that only if all tokens so far stand where the grammar has them.

* `AtTerm`, `AfterFactor`, `AtAtom` — where a pattern can be cut; `InGroups` — the same inside open
  groups;
* `Yard.Consistent` — what taking tokens keeps; `Yard.Consistent.shifted`, `Yard.Consistent.take`,
  `Yard.Consistent.read` — that it does;
* `Postfix.ofText_eq_postorder_iff` — a pattern has the postfix tokens of an expression exactly if
  it is a way to write it;
* `Postfix.ofText_eq_nil_iff` — only the empty pattern has no postfix tokens.
-/

namespace PatternAutomata

variable {u v p q : Text} {r s : Regex} {n : Nat} {P Q : Text → Prop}

/-! ### Where a pattern can be cut -/

/-- A term can start after the text: it is empty or an expression with `|` after it. -/
inductive AtTerm : Text → Prop where
  | start : AtTerm []
  | union {r : Regex} {p : Text} : Spells .expression r p → AtTerm (p ++ ['|'])

/-- The text is an expression, cut before its last factor. -/
inductive AfterFactor : Text → Prop where
  | first {u p : Text} {r : Regex} : AtTerm u → Spells .factor r p → AfterFactor (u ++ p)
  | next {u p q : Text} {r s : Regex} :
      AtTerm u → Spells .term r p → Spells .factor s q → AfterFactor (u ++ (p ++ q))

/-- An atom can start after the text. -/
def AtAtom (u : Text) : Prop := AtTerm u ∨ AfterFactor u

theorem AtTerm.exists_expression (h : AtTerm u) (hp : Spells .term r p) :
    ∃ s, Spells .expression s (u ++ p) := by
  cases h with
  | start => exact ⟨r, .ofTerm hp⟩
  | union hq =>
    rw [List.append_assoc]
    exact ⟨_, .union hq hp⟩

theorem AfterFactor.exists_expression (h : AfterFactor u) : ∃ r, Spells .expression r u := by
  cases h with
  | first hu hp => exact hu.exists_expression (.ofFactor hp)
  | next hu hp hq => exact hu.exists_expression (.concat hp hq)

theorem AfterFactor.star (h : AfterFactor u) : AfterFactor (u ++ ['*']) := by
  cases h with
  | first hu hp =>
    rw [List.append_assoc]
    exact .first hu (.star hp)
  | next hu hp hq =>
    rw [List.append_assoc, List.append_assoc]
    exact .next hu hp (.star hq)

theorem AfterFactor.union (h : AfterFactor u) : AtTerm (u ++ ['|']) := by
  obtain ⟨r, hr⟩ := h.exists_expression
  exact .union hr

theorem AtAtom.atom (h : AtAtom u) (hp : Spells .atom r p) : AfterFactor (u ++ p) := by
  rcases h with h | h
  · exact .first h (.ofAtom hp)
  · cases h with
    | first hu hq =>
      rw [List.append_assoc]
      exact .next hu (.ofFactor hq) (.ofAtom hp)
    | next hu hq hs =>
      rw [List.append_assoc]
      exact .next hu (.concat hq hs) (.ofAtom hp)

/-- A text that opens groups, each where an atom can start. -/
inductive Opened : Nat → Text → Prop where
  | none : Opened 0 []
  | group {n : Nat} {v u : Text} : Opened n v → AtAtom u → Opened (n + 1) (v ++ u ++ ['('])

/-- The text opens `n` groups and goes on with a text that satisfies `P`. -/
def InGroups (P : Text → Prop) (n : Nat) (u : Text) : Prop :=
  ∃ v w, u = v ++ w ∧ Opened n v ∧ P w

theorem inGroups_zero_iff : InGroups P 0 u ↔ P u := by
  constructor
  · intro h
    obtain ⟨v, w, rfl, opened, hw⟩ := h
    cases opened
    exact hw
  · intro h
    exact ⟨[], u, rfl, .none, h⟩

theorem InGroups.append (h : InGroups P n u) (step : ∀ w, P w → Q (w ++ p)) :
    InGroups Q n (u ++ p) := by
  obtain ⟨v, w, rfl, opened, hw⟩ := h
  exact ⟨v, w ++ p, List.append_assoc v w p, opened, step w hw⟩

theorem InGroups.opening (h : InGroups AtAtom n u) : InGroups AtAtom (n + 1) (u ++ ['(']) := by
  obtain ⟨v, w, rfl, opened, hw⟩ := h
  exact ⟨v ++ w ++ ['('], [], (List.append_nil _).symm, .group opened hw, Or.inl .start⟩

/-- A closed group is an atom of the group around it. -/
theorem InGroups.closing (h : InGroups AfterFactor (n + 1) u) :
    InGroups AfterFactor n (u ++ [')']) := by
  obtain ⟨x, w, rfl, opened, hw⟩ := h
  obtain ⟨r, hr⟩ := hw.exists_expression
  cases opened with
  | group outer hu => exact ⟨_, _, by simp, outer, hu.atom (.group hr)⟩

/-! ### Counting operands -/

theorem Regex.countP_postorder (r : Regex) :
    r.postorder.countP Token.isLiteral = r.postorder.countP Token.isBinary + 1 := by
  induction r with
  | literal c => rfl
  | union r s ihr ihs =>
    simp only [postorder, List.countP_append, ihr, ihs, List.countP_singleton]
    simp only [Token.isLiteral, Token.isBinary]
    simp
    omega
  | concat r s ihr ihs =>
    simp only [postorder, List.countP_append, ihr, ihs, List.countP_singleton]
    simp only [Token.isLiteral, Token.isBinary]
    simp
    omega
  | star r ih =>
    simp only [postorder, List.countP_append, ih, List.countP_singleton]
    simp [Token.isLiteral, Token.isBinary]

/-- Expressions side by side have one literal more than operators with two operands for each. -/
theorem Regex.countP_flatMap_postorder (l : List Regex) :
    (l.flatMap postorder).countP Token.isLiteral =
      (l.flatMap postorder).countP Token.isBinary + l.length := by
  induction l with
  | nil => rfl
  | cons r l ih =>
    have first := r.countP_postorder
    rw [List.flatMap_cons, List.countP_append, List.countP_append, List.length_cons]
    omega

/-- The characters of a pattern that a token stands for.  A concatenation has been put in. -/
def Token.source : Token → Text
  | .operator .concatenation => []
  | t => [t.sign]

theorem Operator.ofSymbol?_ne_concatenation (c : Symbol) :
    Operator.ofSymbol? c ≠ some .concatenation := by
  unfold Operator.ofSymbol?
  repeat' split
  all_goals nofun

theorem Token.source_ofSymbol (c : Symbol) : (Token.ofSymbol c).source = [c] := by
  have sign := PlacedToken.sign_ofSymbol c
  unfold source
  split
  · next same =>
    unfold ofSymbol at same
    split at same
    · next found =>
      cases same
      exact absurd found (Operator.ofSymbol?_ne_concatenation c)
    · cases same
  · rw [sign]

namespace Yard

open PlacedToken

variable {y z : Yard} {t : PlacedToken} {k : Int}

/-- Whether an operand has just ended. -/
def ended (y : Yard) : Bool := y.previous.any Token.endsOperand

/-- The number of literals taken so far. -/
def literals (y : Yard) : Nat := y.held.countP Token.isLiteral

/-- The number of operators with two operands taken so far. -/
def binaries (y : Yard) : Nat := y.held.countP Token.isBinary

/-- Where a pattern is cut when an operand has just ended, and when not. -/
def CutAt : Bool → Text → Prop
  | true => AfterFactor
  | false => AtAtom

/-- What holds when the text `u` has been taken. -/
structure Consistent (u : Text) (y : Yard) : Prop where
  bound : y.literals ≤ y.binaries + y.ended.toNat
  wellPlaced : y.literals = y.binaries + y.ended.toNat → InGroups (CutAt y.ended) y.depth u
  idle : (∀ t ∈ y.held, t.isParen = true) →
    u = [] ∧ y.waiting = [] ∨ y.previous = some (.operator .leftParen) ∧ y.waiting ≠ []

theorem consistent_empty : Consistent [] empty where
  bound := Nat.le_refl 0
  wellPlaced := fun _ => inGroups_zero_iff.2 (Or.inl .start)
  idle := fun _ => Or.inl ⟨rfl, rfl⟩

theorem Shifted.literals_eq (h : Shifted y t z) :
    z.literals = y.literals + if t.token.isLiteral then 1 else 0 :=
  h.countP_held fun _ => Token.isLiteral_eq_false_of_isParen

theorem Shifted.binaries_eq (h : Shifted y t z) :
    z.binaries = y.binaries + if t.token.isBinary then 1 else 0 :=
  h.countP_held fun _ => Token.isBinary_eq_false_of_isParen

theorem ended_of_previous {s : Token} (h : y.previous = some s) : y.ended = s.endsOperand := by
  rw [ended, h]
  rfl

theorem Shifted.previous (h : Shifted y t z) : z.previous = some t.token := by
  cases h <;> rfl

theorem not_ended_of_apart (apart : ∀ s ∈ y.previous, ¬ s.Juxtaposed t.token)
    (starts : t.token.startsOperand = true) : y.ended = false := by
  cases previous : y.previous with
  | none =>
    rw [ended, previous]
    rfl
  | some s =>
    rw [ended_of_previous previous]
    by_cases ends : s.endsOperand = true
    · exact absurd ⟨ends, starts⟩ (apart s previous)
    · simpa using ends

/-- If a token that is no parenthesis is held, the pattern is not idle. -/
theorem Shifted.idle (h : Shifted y t z)
    (before : (∀ t ∈ y.held, t.isParen = true) →
      u = [] ∧ y.waiting = [] ∨ y.previous = some (.operator .leftParen) ∧ y.waiting ≠ [])
    (nothing : ∀ t ∈ z.held, t.isParen = true) :
    z.previous = some (.operator .leftParen) ∧ z.waiting ≠ [] := by
  have none : (z.held.filter fun t => !t.isParen) = [] := by
    rw [List.filter_eq_nil_iff]
    intro t ht
    simp [nothing t ht]
  have all := h.perm_held
  rw [none] at all
  have held := List.filter_eq_nil_iff.1 all.symm.eq_nil
  have parens : ∀ s ∈ y.held ++ [t.token], s.isParen = true := by
    intro s hs
    simpa using held s hs
  obtain ⟨earlier, last⟩ := List.forall_mem_append.1 parens
  have paren := last t.token (List.mem_singleton.2 rfl)
  cases h with
  | literal n c => cases paren
  | opening n => exact ⟨rfl, List.cons_ne_nil _ _⟩
  | closing n previous waiting _ =>
    rcases before earlier with ⟨_, empty⟩ | ⟨open', _⟩
    · rw [waiting] at empty
      exact absurd empty (by simp)
    · exact absurd open' previous
  | operating n left right _ _ =>
    rw [Token.isParen_eq_false left right] at paren
    cases paren

/-- One literal more than operators with two operands: an operand has just ended. -/
theorem Consistent.of_surplus (h : Consistent u y) (surplus : y.literals = y.binaries + 1) :
    y.ended = true ∧ InGroups AfterFactor y.depth u := by
  have bound := h.bound
  have wellPlaced := h.wellPlaced
  cases before : y.ended with
  | false =>
    rw [before] at bound
    have fewer : y.literals ≤ y.binaries := bound
    omega
  | true =>
    rw [before] at wellPlaced
    exact ⟨rfl, wellPlaced surplus⟩

/-- Where no operand has just ended there are no more literals than operators with two operands. -/
theorem Consistent.of_not_ended (h : Consistent u y) (before : y.ended = false) :
    y.literals ≤ y.binaries ∧ (y.literals = y.binaries → InGroups AtAtom y.depth u) := by
  have bound := h.bound
  have wellPlaced := h.wellPlaced
  rw [before] at bound wellPlaced
  exact ⟨bound, wellPlaced⟩

theorem Consistent.le_succ (h : Consistent u y) : y.literals ≤ y.binaries + 1 :=
  Nat.le_trans h.bound (Nat.add_le_add_left (Bool.toNat_le _) _)

/-- Taking an operator keeps the count.  If it is in its place, an operand has just ended. -/
theorem Consistent.counted_operating {o : Operator} (h : Consistent u y)
    (step : Shifted y ⟨k, .operator o⟩ z) (left : o ≠ .leftParen) (right : o ≠ .rightParen)
    (depth : z.depth = y.depth) :
    z.literals ≤ z.binaries + z.ended.toNat ∧
      (z.literals = z.binaries + z.ended.toNat →
        InGroups (CutAt z.ended) z.depth (u ++ (Token.operator o).source)) := by
  have literals : z.literals = y.literals := step.literals_eq
  have binaries := step.binaries_eq
  have most := h.le_succ
  rw [literals, binaries, depth, ended_of_previous step.previous]
  cases o with
  | leftParen => exact absurd rfl left
  | rightParen => exact absurd rfl right
  | star =>
    refine ⟨most, ?_⟩
    intro surplus
    exact (h.of_surplus surplus).2.append fun w hw => AfterFactor.star hw
  | union =>
    refine ⟨most, ?_⟩
    intro surplus
    exact (h.of_surplus surplus).2.append fun w hw => Or.inl (AfterFactor.union hw)
  | concatenation =>
    refine ⟨most, ?_⟩
    intro surplus
    refine (h.of_surplus surplus).2.append fun w hw => Or.inr ?_
    rw [Token.source, List.append_nil]
    exact hw

/-- Taking a token that is not juxtaposed to the one before keeps this. -/
theorem Consistent.shifted (h : Consistent u y) (step : Shifted y t z)
    (apart : ∀ s ∈ y.previous, ¬ s.Juxtaposed t.token)
    (literal : ∀ c, t.token = .literal c → IsLiteral c) :
    Consistent (u ++ t.token.source) z := by
  suffices counted : z.literals ≤ z.binaries + z.ended.toNat ∧
      (z.literals = z.binaries + z.ended.toNat →
        InGroups (CutAt z.ended) z.depth (u ++ t.token.source)) from
    ⟨counted.1, counted.2, fun nothing => Or.inr (step.idle h.idle nothing)⟩
  have literals := step.literals_eq
  have binaries := step.binaries_eq
  have ended := ended_of_previous step.previous
  have notEnded := not_ended_of_apart apart
  cases step with
  | literal n c =>
    obtain ⟨bound, wellPlaced⟩ := h.of_not_ended (notEnded rfl)
    rw [literals, binaries, ended]
    refine ⟨Nat.succ_le_succ bound, ?_⟩
    intro full
    have cut := wellPlaced (Nat.succ.inj full)
    exact cut.append fun w hw => hw.atom (.literal (literal c rfl))
  | opening n =>
    obtain ⟨bound, wellPlaced⟩ := h.of_not_ended (notEnded rfl)
    rw [literals, binaries, ended]
    refine ⟨bound, ?_⟩
    intro full
    rw [depth, List.countP_cons_of_pos rfl]
    exact (wellPlaced full).opening
  | closing n previous waiting inner =>
    rw [literals, binaries, ended]
    refine ⟨h.le_succ, ?_⟩
    intro surplus
    have cut := (h.of_surplus surplus).2
    rw [depth_eq_of_append waiting inner, List.countP_cons_of_pos rfl] at cut
    exact cut.closing
  | operating n left right waiting inner =>
    refine h.counted_operating (.operating n left right waiting inner) left right ?_
    rw [depth_eq_of_append waiting inner, depth, List.countP_cons_of_neg]
    simpa using left

/-! ### Taking a pattern -/

/-- Taking a character of a pattern, with the concatenation in front of it, keeps this. -/
theorem Consistent.take {c : Symbol} (h : Consistent u y)
    (taken : y.take ⟨k, Token.ofSymbol c⟩ = .ok z) : Consistent (u ++ [c]) z := by
  have literal : ∀ d, Token.ofSymbol c = .literal d → IsLiteral d := by
    intro d same
    unfold Token.ofSymbol at same
    split at same
    · cases same
    · next none =>
      cases same
      exact none
  have source := Token.source_ofSymbol c
  by_cases joined : ∃ s, y.previous = some s ∧ s.Juxtaposed (Token.ofSymbol c)
  · obtain ⟨s, previous, joined⟩ := joined
    rw [take_of_juxtaposed previous joined] at taken
    obtain ⟨x, front, taken⟩ := exists_of_bind_eq_ok taken
    have between := h.shifted (shifted_of_shift front)
      (fun s _ => Token.not_juxtaposed_concatenation s) nofun
    have after : ∀ s ∈ x.previous, ¬ s.Juxtaposed (Token.ofSymbol c) := by
      rw [previous_of_shift front]
      intro s hs
      cases hs
      exact Token.concatenation_not_juxtaposed _
    have next := between.shifted (shifted_of_shift taken) after literal
    rw [Token.source, List.append_nil, source] at next
    exact next
  · have apart : ∀ s ∈ y.previous, ¬ s.Juxtaposed (Token.ofSymbol c) := by
      intro s hs together
      exact joined ⟨s, hs, together⟩
    rw [take_of_not_juxtaposed apart] at taken
    have next := h.shifted (shifted_of_shift taken) apart literal
    rw [source] at next
    exact next

theorem Consistent.read (h : Consistent u y) (run : y.read (tokenizeFrom k p) = .ok z) :
    Consistent (u ++ p) z := by
  induction p generalizing u y k with
  | nil =>
    cases run
    rw [List.append_nil]
    exact h
  | cons c p ih =>
    rw [tokenizeFrom, read_cons] at run
    obtain ⟨x, taken, rest⟩ := exists_of_bind_eq_ok run
    rw [List.append_cons]
    exact ih (h.take taken) rest

end Yard

/-! ### The postfix tokens of a pattern -/

namespace Postfix

variable {tokens : List Token}

/-- If a pattern has postfix tokens, they are held when all of it has been taken, and no group is
open then. -/
theorem exists_consistent (h : ofText p = .ok tokens) :
    ∃ y : Yard, y.Consistent p ∧ tokens = y.held ∧ ∀ w ∈ y.waiting, w.2 ≠ .leftParen := by
  rw [ofText_eq] at h
  obtain ⟨y, run, finished⟩ := exists_of_bind_eq_ok h
  exact ⟨y, Yard.consistent_empty.read run, Yard.eq_held_of_finish finished⟩

/-- Only the ways to write an expression have its postfix tokens. -/
theorem ofText_eq_postorder_iff : ofText p = .ok r.postorder ↔ Spells .expression r p := by
  constructor
  · intro h
    obtain ⟨y, consistent, held, closed⟩ := exists_consistent h
    have surplus : y.literals = y.binaries + 1 := by
      unfold Yard.literals Yard.binaries
      rw [← held]
      exact r.countP_postorder
    have cut := (consistent.of_surplus surplus).2
    rw [Yard.depth_eq_of_append (List.append_nil _).symm closed, List.countP_nil,
      inGroups_zero_iff] at cut
    obtain ⟨s, hs⟩ := cut.exists_expression
    rw [ofText_eq_of_spells hs] at h
    injection h with same
    rw [← Regex.postorder_injective same]
    exact hs
  · exact ofText_eq_of_spells

/-- Only the empty pattern has no postfix tokens. -/
theorem ofText_eq_nil_iff : ofText p = .ok [] ↔ p = [] := by
  constructor
  · intro h
    obtain ⟨y, consistent, held, closed⟩ := exists_consistent h
    have nothing : ∀ t ∈ y.held, t.isParen = true := by
      rw [← held]
      intro t ht
      exact absurd ht List.not_mem_nil
    rcases consistent.idle nothing with ⟨empty, _⟩ | ⟨_, waits⟩
    · exact empty
    · -- what waits would be held
      have waiting : Yard.asTokens y.waiting = [] := (List.append_eq_nil_iff.1 held.symm).2
      exact absurd (List.map_eq_nil_iff.1 waiting) waits
  · intro h
    rw [h]
    rfl

end Postfix

end PatternAutomata
