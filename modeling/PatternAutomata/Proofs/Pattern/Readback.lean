import PatternAutomata.Pattern.ParseError
import PatternAutomata.Pattern.Regex
import PatternAutomata.Proofs.Data.Outcome

/-!
# Reading postfix tokens back

Postfix tokens are read back into expressions on a stack, the way automata are built from them.
Reading back never loses a token, so what it gives has exactly the given postfix tokens.

* `Regex.combine`, `Regex.combineAll` — one token, and several;
* `Regex.ofPostfix` — the expression of a whole sequence, and none for no token at all;
* `combineAll_postorder` — the postfix tokens of an expression put it on the stack;
* `flatMap_postorder_combineAll` — the stack has the postfix tokens read so far;
* `ofPostfix_eq_some_iff` — only the postfix tokens of an expression are read back as it.
-/

namespace PatternAutomata

namespace Regex

variable {r : Regex} {stack stack' : List Regex} {t : Token} {ts us : List Token}

/-- Takes one token on a stack of expressions, the latest first. -/
def combine (stack : List Regex) : Token → Except ParseError (List Regex)
  | .literal c => .ok (.literal c :: stack)
  | .operator .star =>
    match stack with
    | r :: rest => .ok (.star r :: rest)
    | [] => .error (.missingOperand .star)
  | .operator .concatenation =>
    match stack with
    | s :: r :: rest => .ok (.concat r s :: rest)
    | _ => .error (.missingOperand .concatenation)
  | .operator .union =>
    match stack with
    | s :: r :: rest => .ok (.union r s :: rest)
    | _ => .error (.missingOperand .union)
  | .operator o => .error (.strayParenthesis o)

/-- Takes the tokens one after the other. -/
def combineAll (stack : List Regex) : List Token → Except ParseError (List Regex)
  | [] => .ok stack
  | t :: rest => (combine stack t).bind fun stack => combineAll stack rest

/-- What a stack holds in the end. -/
def outcome : List Regex → Except ParseError (Option Regex)
  | [] => .ok none
  | [r] => .ok (some r)
  | stack => .error (.leftoverOperands stack.length)

/-- The expression with the given postfix tokens; no token at all stands for no expression. -/
def ofPostfix (tokens : List Token) : Except ParseError (Option Regex) :=
  (combineAll [] tokens).bind outcome

theorem combineAll_append (stack : List Regex) (ts us : List Token) :
    combineAll stack (ts ++ us) = (combineAll stack ts).bind fun stack => combineAll stack us := by
  induction ts generalizing stack with
  | nil => rfl
  | cons t ts ih =>
    rw [List.cons_append, combineAll, combineAll]
    cases combine stack t with
    | error e => rfl
    | ok next => exact ih next

/-- The postfix tokens of an expression put it on the stack. -/
theorem combineAll_postorder (r : Regex) (stack : List Regex) :
    combineAll stack r.postorder = .ok (r :: stack) := by
  induction r generalizing stack with
  | literal c => rfl
  | union r s ihr ihs =>
    rw [postorder, combineAll_append, combineAll_append, ihr]
    show (combineAll (r :: stack) s.postorder).bind _ = _
    rw [ihs]
    rfl
  | concat r s ihr ihs =>
    rw [postorder, combineAll_append, combineAll_append, ihr]
    show (combineAll (r :: stack) s.postorder).bind _ = _
    rw [ihs]
    rfl
  | star r ih =>
    rw [postorder, combineAll_append, ih]
    rfl

/-- One token more on the stack. -/
theorem flatMap_postorder_combine (h : combine stack t = .ok stack') :
    stack'.reverse.flatMap postorder = stack.reverse.flatMap postorder ++ [t] := by
  unfold combine at h
  split at h
  · cases h
    simp [postorder]
  · cases stack with
    | nil => cases h
    | cons r rest =>
      cases h
      simp [postorder]
  · rcases stack with _ | ⟨s, _ | ⟨r, rest⟩⟩
    · cases h
    · cases h
    · cases h
      simp [postorder]
  · rcases stack with _ | ⟨s, _ | ⟨r, rest⟩⟩
    · cases h
    · cases h
    · cases h
      simp [postorder]
  · cases h

/-- The stack has the postfix tokens read so far. -/
theorem flatMap_postorder_combineAll (h : combineAll stack ts = .ok stack') :
    stack'.reverse.flatMap postorder = stack.reverse.flatMap postorder ++ ts := by
  induction ts generalizing stack with
  | nil =>
    cases h
    rw [List.append_nil]
  | cons t ts ih =>
    obtain ⟨next, step, rest⟩ := exists_of_bind_eq_ok h
    rw [ih rest, flatMap_postorder_combine step, List.append_assoc]
    rfl

theorem ofPostfix_postorder (r : Regex) : ofPostfix r.postorder = .ok (some r) := by
  rw [ofPostfix, combineAll_postorder]
  rfl

/-- A stack that holds one expression, or none, has been read from its postfix tokens. -/
theorem eq_of_ofPostfix {found : Option Regex} (h : ofPostfix ts = .ok found) :
    ts = (found.map postorder).getD [] := by
  obtain ⟨stack, run, left⟩ := exists_of_bind_eq_ok h
  have tokens := flatMap_postorder_combineAll run
  rcases stack with _ | ⟨r, _ | ⟨s, rest⟩⟩
  · cases left
    exact tokens.symm
  · cases left
    simpa using tokens.symm
  · cases left

/-- Only the postfix tokens of an expression are read back as it. -/
theorem ofPostfix_eq_some_iff : ofPostfix ts = .ok (some r) ↔ ts = r.postorder := by
  constructor
  · intro h
    exact eq_of_ofPostfix h
  · intro h
    rw [h]
    exact ofPostfix_postorder r

theorem ofPostfix_eq_none_iff : ofPostfix ts = .ok none ↔ ts = [] := by
  constructor
  · intro h
    exact eq_of_ofPostfix h
  · intro h
    rw [h]
    rfl

/-- Different expressions have different postfix tokens. -/
theorem postorder_injective {s : Regex} (h : r.postorder = s.postorder) : r = s := by
  have back := ofPostfix_postorder r
  rw [h, ofPostfix_postorder] at back
  injection back with same
  injection same with same
  exact same.symm

end Regex

end PatternAutomata
