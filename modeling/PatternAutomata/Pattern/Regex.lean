import PatternAutomata.Pattern.Token

/-!
# Regular expressions

The expressions that patterns stand for, as trees, and the texts that they match.

* `Regex.Matches` — the texts that an expression matches;
* `Regex.postorder` — the postfix tokens of an expression;
* `matches_union_iff`, `matches_concat_iff`, `matches_star_iff` — matching, operator by operator;
* `postorder_ne_nil` — no expression has an empty postfix form.
-/

namespace PatternAutomata

/-- A regular expression over symbols. -/
inductive Regex where
  | literal (symbol : Symbol)
  | union (left right : Regex)
  | concat (left right : Regex)
  | star (body : Regex)
  deriving DecidableEq, Repr

namespace Regex

/-- The texts that an expression matches. -/
inductive Matches : Regex → Text → Prop where
  | literal (c : Symbol) : Matches (.literal c) [c]
  | left {r s : Regex} {u : Text} : Matches r u → Matches (.union r s) u
  | right {r s : Regex} {u : Text} : Matches s u → Matches (.union r s) u
  | concat {r s : Regex} {u v : Text} : Matches r u → Matches s v → Matches (.concat r s) (u ++ v)
  | starNil (r : Regex) : Matches (.star r) []
  | starAppend {r : Regex} {u v : Text} :
      Matches r u → Matches (.star r) v → Matches (.star r) (u ++ v)

/-- The postfix tokens of an expression: operands first, from left to right, and then the operator.
-/
def postorder : Regex → List Token
  | .literal c => [.literal c]
  | .union r s => r.postorder ++ s.postorder ++ [.operator .union]
  | .concat r s => r.postorder ++ s.postorder ++ [.operator .concatenation]
  | .star r => r.postorder ++ [.operator .star]

/-! ### Matching, operator by operator -/

variable {r s : Regex} {u v w : Text}

theorem matches_literal_iff {c : Symbol} : Matches (.literal c) w ↔ w = [c] := by
  constructor
  · intro h
    cases h
    rfl
  · rintro rfl
    exact .literal c

theorem matches_union_iff : Matches (.union r s) w ↔ Matches r w ∨ Matches s w := by
  constructor
  · intro h
    cases h with
    | left h => exact Or.inl h
    | right h => exact Or.inr h
  · rintro (h | h)
    · exact .left h
    · exact .right h

theorem matches_concat_iff :
    Matches (.concat r s) w ↔ ∃ u v, w = u ++ v ∧ Matches r u ∧ Matches s v := by
  constructor
  · intro h
    cases h with
    | concat hu hv => exact ⟨_, _, rfl, hu, hv⟩
  · rintro ⟨u, v, rfl, hu, hv⟩
    exact .concat hu hv

theorem matches_star_iff :
    Matches (.star r) w ↔ ∃ parts : List Text, w = parts.flatten ∧ ∀ u ∈ parts, Matches r u := by
  constructor
  · intro h
    generalize ht : Regex.star r = t at h
    induction h with
    | literal c => cases ht
    | left _ _ => cases ht
    | right _ _ => cases ht
    | concat _ _ _ _ => cases ht
    | starNil _ => exact ⟨[], rfl, by simp⟩
    | starAppend hu _ _ ih =>
      cases ht
      obtain ⟨parts, rfl, hparts⟩ := ih rfl
      exact ⟨_ :: parts, rfl, List.forall_mem_cons.2 ⟨hu, hparts⟩⟩
  · rintro ⟨parts, rfl, hparts⟩
    induction parts with
    | nil => exact .starNil r
    | cons u parts ih =>
      obtain ⟨hu, hrest⟩ := List.forall_mem_cons.1 hparts
      exact .starAppend hu (ih hrest)

theorem postorder_ne_nil (r : Regex) : r.postorder ≠ [] := by
  cases r <;> simp [postorder]

end Regex

end PatternAutomata
