import Mathlib.Data.List.Chain
import PatternAutomata.Proofs.Pattern.Operands

/-!
# Tokens with every juxtaposition made explicit

`PlacedToken.explicit` keeps the tokens that it is given and puts concatenations between them, so
that no operand ends directly before another starts.  No shorter sequence around the given tokens
has this property, whatever is put in and wherever.

* `PlacedToken.Interspersed` — tokens with concatenations put in; `interspersed_explicit`;
* `PlacedToken.IsExplicit` — no neighbours are juxtaposed; `isExplicit_explicit`;
* `PlacedToken.length_explicit_le` — no explicit sequence around the given tokens is shorter;
* `PlacedToken.explicit_eq_self_iff` — explicit tokens stay as they are;
* `PlacedToken.implicit` — the tokens without concatenations;
* `PlacedToken.explicit_adds_fewest_concatenations` — all of this, for any tokens in any places.
-/

namespace PatternAutomata

/-- No character of a text stands for a concatenation. -/
theorem Token.ofSymbol_ne_concatenation (c : Symbol) : ofSymbol c ≠ .operator .concatenation := by
  intro same
  have source := source_ofSymbol c
  rw [same] at source
  cases source

namespace PlacedToken

variable {previous : Option Token} {s t : PlacedToken} {ts us : List PlacedToken}

/-! ### What is put in -/

/-- `Interspersed ts us`: `us` is `ts` with concatenations put in, each with the position of the
token after it. -/
inductive Interspersed : List PlacedToken → List PlacedToken → Prop where
  | nil : Interspersed [] []
  | given {ts us : List PlacedToken} (t : PlacedToken) :
    Interspersed ts us → Interspersed (t :: ts) (t :: us)
  | added {ts us : List PlacedToken} (t : PlacedToken) :
    Interspersed ts (t :: us) →
      Interspersed ts (⟨t.position, .operator .concatenation⟩ :: t :: us)

/-- The tokens without the concatenations. -/
def implicit (ts : List PlacedToken) : List PlacedToken :=
  ts.filter fun t => decide (t.token ≠ .operator .concatenation)

theorem Interspersed.sublist (h : Interspersed ts us) : ts.Sublist us := by
  induction h with
  | nil => exact .slnil
  | given t _ ih => exact ih.cons_cons t
  | added t _ ih => exact ih.cons _

theorem Interspersed.implicit_eq (h : Interspersed ts us) : implicit us = implicit ts := by
  induction h with
  | nil => rfl
  | given t _ ih =>
    unfold implicit at ih ⊢
    rw [List.filter_cons, List.filter_cons, ih]
  | added t _ ih => exact ih

theorem joint_eq (previous : Option Token) (t : PlacedToken) :
    joint previous t = [] ∨ joint previous t = [⟨t.position, .operator .concatenation⟩] := by
  unfold joint
  split
  · exact Or.inl rfl
  · split
    · exact Or.inr rfl
    · exact Or.inl rfl

theorem interspersed_explicitAfter (previous : Option Token) (ts : List PlacedToken) :
    Interspersed ts (explicitAfter previous ts) := by
  induction ts generalizing previous with
  | nil => exact .nil
  | cons t ts ih =>
    have rest := (ih (some t.token)).given t
    rcases joint_eq previous t with none | some
    · rw [explicitAfter, none]
      exact rest
    · rw [explicitAfter, some]
      exact rest.added

theorem interspersed_explicit (ts : List PlacedToken) : Interspersed ts (explicit ts) := by
  rw [explicit_eq]
  exact interspersed_explicitAfter none ts

/-! ### No operand ends directly before another -/

/-- No token that ends an operand stands directly before one that starts an operand. -/
def IsExplicit (ts : List PlacedToken) : Prop :=
  ts.IsChain fun s t => ¬ s.token.Juxtaposed t.token

instance (ts : List PlacedToken) : Decidable (IsExplicit ts) :=
  inferInstanceAs (Decidable (List.IsChain _ ts))

theorem isExplicit_cons_iff :
    IsExplicit (t :: us) ↔
      (∀ s ∈ some t.token, ∀ u ∈ us.head?, ¬ s.Juxtaposed u.token) ∧ IsExplicit us := by
  unfold IsExplicit
  rw [List.isChain_cons]
  simp only [Option.mem_some_iff, forall_eq']

theorem isExplicit_cons_explicitAfter (s : PlacedToken) (ts : List PlacedToken) :
    IsExplicit (s :: explicitAfter (some s.token) ts) := by
  induction ts generalizing s with
  | nil => exact .singleton s
  | cons t ts ih =>
    by_cases meant : s.token.Juxtaposed t.token
    · rw [explicitAfter, joint, if_pos meant]
      exact .cons_cons (Token.not_juxtaposed_concatenation s.token)
        (.cons_cons (Token.concatenation_not_juxtaposed t.token) (ih t))
    · rw [explicitAfter, joint, if_neg meant]
      exact .cons_cons meant (ih t)

theorem isExplicit_explicit (ts : List PlacedToken) : IsExplicit (explicit ts) := by
  cases ts with
  | nil => exact .nil
  | cons t ts =>
    rw [explicit_cons]
    exact isExplicit_cons_explicitAfter t ts

/-! ### Nothing is put in without need -/

/-- The token before decides about one concatenation only. -/
theorem length_explicitAfter_le_succ (previous other : Option Token) (ts : List PlacedToken) :
    (explicitAfter previous ts).length ≤ (explicitAfter other ts).length + 1 := by
  cases ts with
  | nil => exact Nat.zero_le 1
  | cons t ts =>
    have short : (joint previous t).length ≤ 1 := by
      rcases joint_eq previous t with none | some
      · rw [none]
        exact Nat.zero_le 1
      · rw [some]
        exact Nat.le_refl 1
    rw [explicitAfter, explicitAfter, List.length_append, List.length_append]
    omega

/-- An explicit sequence around `ts` that can follow `previous` is no shorter than the one that is
made.  The induction goes along the sequence: of two juxtaposed tokens the second does not come
next in it, and the token that does makes up for the concatenation. -/
theorem length_explicitAfter_le (h : ts.Sublist us) (isExplicit : IsExplicit us)
    (next : ∀ s ∈ previous, ∀ u ∈ us.head?, ¬ s.Juxtaposed u.token) :
    (explicitAfter previous ts).length ≤ us.length := by
  induction h generalizing previous with
  | slnil => exact Nat.le_refl 0
  | @cons ts us u _ ih =>
    obtain ⟨first, rest⟩ := isExplicit_cons_iff.1 isExplicit
    calc (explicitAfter previous ts).length
        ≤ (explicitAfter (some u.token) ts).length + 1 :=
          length_explicitAfter_le_succ previous (some u.token) ts
      _ ≤ us.length + 1 := Nat.succ_le_succ (ih rest first)
  | @cons_cons ts us t _ ih =>
    obtain ⟨first, rest⟩ := isExplicit_cons_iff.1 isExplicit
    have nothing : joint previous t = [] := by
      cases previous with
      | none => rfl
      | some s => exact if_neg (next s rfl t rfl)
    rw [explicitAfter, nothing]
    exact Nat.succ_le_succ (ih rest first)

/-- No explicit sequence around the given tokens is shorter. -/
theorem length_explicit_le (h : ts.Sublist us) (isExplicit : IsExplicit us) :
    (explicit ts).length ≤ us.length := by
  rw [explicit_eq]
  exact length_explicitAfter_le h isExplicit nofun

/-- Exactly the explicit tokens stay as they are. -/
theorem explicit_eq_self_iff : explicit ts = ts ↔ IsExplicit ts := by
  constructor
  · intro same
    rw [← same]
    exact isExplicit_explicit ts
  · intro isExplicit
    have kept := (interspersed_explicit ts).sublist
    have short := length_explicit_le (List.Sublist.refl ts) isExplicit
    exact (kept.eq_of_length_le short).symm

/-! ### The tokens of a text -/

theorem implicit_tokenize (p : Text) : implicit (tokenize p) = tokenize p := by
  rw [implicit, List.filter_eq_self]
  intro t ht
  have mem : t.token ∈ p.map Token.ofSymbol := by
    rw [← map_token_tokenizeFrom 0 p]
    exact List.mem_map_of_mem ht
  obtain ⟨c, _, same⟩ := List.mem_map.1 mem
  rw [← same]
  exact decide_eq_true (Token.ofSymbol_ne_concatenation c)

/-- **Explicit juxtaposition.**  Whatever the tokens and their positions: made explicit, they are
the given tokens in order, with concatenations put in and nothing else; no token that ends an
operand stands directly before one that starts an operand; no sequence that has this property and
holds the given tokens in order is shorter; and made explicit again, they stay as they are.  Without
the concatenations, the explicit tokens of a text are its tokens. -/
theorem explicit_adds_fewest_concatenations :
    (∀ ts : List PlacedToken,
      Interspersed ts (explicit ts) ∧
      IsExplicit (explicit ts) ∧
      (∀ us : List PlacedToken, ts.Sublist us → IsExplicit us →
        (explicit ts).length ≤ us.length) ∧
      explicit (explicit ts) = explicit ts) ∧
    ∀ p : Text, implicit (explicit (tokenize p)) = tokenize p := by
  constructor
  · intro ts
    refine ⟨interspersed_explicit ts, isExplicit_explicit ts, ?_, ?_⟩
    · intro us around isExplicit
      exact length_explicit_le around isExplicit
    · exact explicit_eq_self_iff.2 (isExplicit_explicit ts)
  · intro p
    rw [(interspersed_explicit (tokenize p)).implicit_eq, implicit_tokenize]

/-- `a.b*(|cd)` with its positions in disorder.  The dot is a concatenation, and two more are meant:
behind the star, and between `c` and `d`. -/
def haphazard : List PlacedToken :=
  [⟨7, .literal 'a'⟩, ⟨-2, .operator .concatenation⟩, ⟨7, .literal 'b'⟩, ⟨0, .operator .star⟩,
    ⟨3, .operator .leftParen⟩, ⟨3, .operator .union⟩, ⟨5, .literal 'c'⟩, ⟨1, .literal 'd'⟩,
    ⟨1, .operator .rightParen⟩]

/-- Another explicit sequence around these tokens, `(a.b*|(|c.d)`. -/
def roundabout : List PlacedToken :=
  [⟨0, .operator .leftParen⟩, ⟨7, .literal 'a'⟩, ⟨-2, .operator .concatenation⟩,
    ⟨7, .literal 'b'⟩, ⟨0, .operator .star⟩, ⟨9, .operator .union⟩, ⟨3, .operator .leftParen⟩,
    ⟨3, .operator .union⟩, ⟨5, .literal 'c'⟩, ⟨5, .operator .concatenation⟩, ⟨1, .literal 'd'⟩,
    ⟨1, .operator .rightParen⟩]

/-- Two concatenations are put in, where the other sequence holds three tokens more. -/
theorem explicit_haphazard_adds_two_concatenations :
    haphazard.Sublist roundabout ∧ IsExplicit roundabout ∧
      explicit haphazard =
        [⟨7, .literal 'a'⟩, ⟨-2, .operator .concatenation⟩, ⟨7, .literal 'b'⟩,
          ⟨0, .operator .star⟩, ⟨3, .operator .concatenation⟩, ⟨3, .operator .leftParen⟩,
          ⟨3, .operator .union⟩, ⟨5, .literal 'c'⟩, ⟨1, .operator .concatenation⟩,
          ⟨1, .literal 'd'⟩, ⟨1, .operator .rightParen⟩] ∧
      (explicit haphazard).length ≤ roundabout.length ∧
      explicit (explicit haphazard) = explicit haphazard := by
  have around : haphazard.Sublist roundabout := by decide
  have isExplicit : IsExplicit roundabout := by decide
  obtain ⟨tokens, _⟩ := explicit_adds_fewest_concatenations
  obtain ⟨_, _, fewest, again⟩ := tokens haphazard
  exact ⟨around, isExplicit, by decide, fewest roundabout around isExplicit, again⟩

end PlacedToken

end PatternAutomata
