import PatternAutomata.Pattern.Postfix
import PatternAutomata.Proofs.Data.Outcome

/-!
# Reading a pattern in one pass

Where a concatenation is put in depends only on the token before, and the rearrangement remembers
that token.  So both passes over a pattern are one: each token is taken together with the
concatenation in front of it.

* `PlacedToken.explicitAfter` — the explicit tokens after a given token; `explicit_eq`;
* `Yard.take`, `Yard.read` — one token, and several, with the concatenations in front of them;
* `Postfix.ofText_eq` — the postfix tokens of a pattern are what reading it gives;
* `Yard.take_of_not_juxtaposed`, `Yard.take_of_juxtaposed`, `Yard.shift_operator`,
  `Yard.shift_rightParen` — taking, case by case.
-/

namespace PatternAutomata

namespace PlacedToken

variable {s : Token} {t : PlacedToken} {ts : List PlacedToken}

/-- The concatenation that stands between the token before, if there is one, and the next. -/
def joint : Option Token → PlacedToken → List PlacedToken
  | none, _ => []
  | some s, t =>
    if s.Juxtaposed t.token then [⟨t.position, .operator .concatenation⟩] else []

/-- Explicit tokens, if `previous` is the token before the first. -/
def explicitAfter (previous : Option Token) : List PlacedToken → List PlacedToken
  | [] => []
  | t :: rest => joint previous t ++ t :: explicitAfter (some t.token) rest

theorem explicit_cons (t : PlacedToken) (ts : List PlacedToken) :
    explicit (t :: ts) = t :: explicitAfter (some t.token) ts := by
  induction ts generalizing t with
  | nil => rfl
  | cons u ts ih =>
    rw [explicit, explicitAfter, joint, ih u]
    split
    · rfl
    · rfl

theorem explicit_eq (ts : List PlacedToken) : explicit ts = explicitAfter none ts := by
  cases ts with
  | nil => rfl
  | cons t ts => exact explicit_cons t ts

theorem tokenizeFrom_append (n : Int) (p q : Text) :
    tokenizeFrom n (p ++ q) = tokenizeFrom n p ++ tokenizeFrom (n + p.length) q := by
  induction p generalizing n with
  | nil => simp [tokenizeFrom]
  | cons c p ih =>
    have position : n + 1 + (p.length : Int) = n + ((c :: p).length : Nat) := by
      rw [List.length_cons]
      omega
    rw [List.cons_append, tokenizeFrom, tokenizeFrom, ih, position]
    rfl

end PlacedToken

namespace Yard

open PlacedToken

variable {y z : Yard} {t : PlacedToken} {ts us : List PlacedToken} {n : Int} {s : Token}
  {o : Operator}

/-! ### One token with the concatenation in front of it -/

/-- Takes the concatenation in front of a token, if one is meant, and then the token. -/
def take (y : Yard) (t : PlacedToken) : Except ParseError Yard :=
  y.run (joint y.previous t ++ [t])

/-- Takes tokens with the concatenations in front of them. -/
def read (y : Yard) : List PlacedToken → Except ParseError Yard
  | [] => .ok y
  | t :: rest => (y.take t).bind fun z => z.read rest

theorem read_cons (y : Yard) (t : PlacedToken) (ts : List PlacedToken) :
    y.read (t :: ts) = (y.take t).bind fun z => z.read ts := rfl

theorem read_singleton (y : Yard) (t : PlacedToken) : y.read [t] = y.take t := by
  rw [read_cons]
  cases y.take t with
  | error e => rfl
  | ok z => rfl

theorem read_append (y : Yard) (ts us : List PlacedToken) :
    y.read (ts ++ us) = (y.read ts).bind fun z => z.read us := by
  induction ts generalizing y with
  | nil => rfl
  | cons t ts ih =>
    rw [List.cons_append, read_cons, read_cons]
    cases y.take t with
    | error e => rfl
    | ok z => exact ih z

theorem run_singleton (y : Yard) (t : PlacedToken) : y.run [t] = y.shift t := by
  show (y.shift t).bind _ = _
  cases y.shift t with
  | error e => rfl
  | ok z => rfl

/-- The token before the next one is the one taken last. -/
theorem previous_of_shift (h : y.shift t = .ok z) : z.previous = some t.token := by
  unfold shift at h
  split at h
  · cases h
    rfl
  · cases h
    rfl
  · split at h
    · cases h
    · split at h
      · cases h
      · cases h
        rfl
  · cases h
    rfl

theorem previous_of_take (h : y.take t = .ok z) : z.previous = some t.token := by
  rw [take, run_append] at h
  obtain ⟨x, _, last⟩ := exists_of_bind_eq_ok h
  rw [run_singleton] at last
  exact previous_of_shift last

/-- Reading is running through the explicit tokens. -/
theorem run_explicitAfter (y : Yard) (ts : List PlacedToken) :
    y.run (explicitAfter y.previous ts) = y.read ts := by
  induction ts generalizing y with
  | nil => rfl
  | cons t ts ih =>
    rw [explicitAfter, List.append_cons, run_append, read_cons]
    cases taken : y.take t with
    | error e =>
      rw [take] at taken
      rw [taken]
      rfl
    | ok z =>
      rw [take] at taken
      rw [taken, ← previous_of_take taken]
      exact ih z

/-! ### Taking, case by case -/

theorem take_of_not_juxtaposed (h : ∀ s ∈ y.previous, ¬ s.Juxtaposed t.token) :
    y.take t = y.shift t := by
  have nothing : joint y.previous t = [] := by
    cases hs : y.previous with
    | none => rfl
    | some s => exact if_neg (h s hs)
  rw [take, nothing, List.nil_append, run_singleton]

theorem take_of_juxtaposed (hs : y.previous = some s) (h : s.Juxtaposed t.token) :
    y.take t =
      (y.shift ⟨t.position, .operator .concatenation⟩).bind fun z => z.shift t := by
  have concatenation : joint y.previous t = [⟨t.position, .operator .concatenation⟩] := by
    rw [hs]
    exact if_pos h
  rw [take, concatenation, run_append, run_singleton]
  congr 1
  funext z
  exact run_singleton z t

/-- An operator that is no parenthesis goes to wait once those that bind at least as tightly are
written. -/
theorem shift_operator (y : Yard) (n : Int) (left : o ≠ .leftParen) (right : o ≠ .rightParen) :
    y.shift ⟨n, .operator o⟩ =
      .ok ⟨y.output ++ released (yieldsTo o) y.waiting, (n, o) :: retained (yieldsTo o) y.waiting,
        some (.operator o)⟩ := by
  cases o with
  | union => rfl
  | concatenation => rfl
  | star => rfl
  | leftParen => exact absurd rfl left
  | rightParen => exact absurd rfl right

/-- A closing parenthesis writes what waits in its group. -/
theorem shift_rightParen {outer : List (Int × Operator)} {w : Int × Operator}
    (previous : y.previous ≠ some (.operator .leftParen))
    (waiting : retained (· ≠ .leftParen) y.waiting = w :: outer) :
    y.shift ⟨n, .operator .rightParen⟩ =
      .ok ⟨y.output ++ released (· ≠ .leftParen) y.waiting, outer,
        some (.operator .rightParen)⟩ := by
  show (if y.previous = some (.operator .leftParen) then _ else _) = _
  rw [if_neg previous]
  simp only [waiting]

/-! ### Waiting operators -/

/-- Waiting operators as written tokens. -/
def asTokens (waiting : List (Int × Operator)) : List Token :=
  waiting.map fun w => .operator w.2

theorem asTokens_append (v w : List (Int × Operator)) :
    asTokens (v ++ w) = asTokens v ++ asTokens w := List.map_append

/-- Operators at the front that are all released leave those behind them. -/
theorem released_append {p : Operator → Bool} {ops rest : List (Int × Operator)}
    (front : ∀ w ∈ ops, p w.2 = true) (back : ∀ w ∈ rest.head?, p w.2 = false) :
    released p (ops ++ rest) = asTokens ops := by
  have none : rest.takeWhile (fun w => p w.2) = [] := by
    cases rest with
    | nil => rfl
    | cons w rest =>
      have stays := back w rfl
      rw [List.takeWhile_cons_of_neg]
      simp [stays]
  unfold released
  rw [List.takeWhile_append_of_pos front, none, List.append_nil]
  rfl

theorem retained_append {p : Operator → Bool} {ops rest : List (Int × Operator)}
    (front : ∀ w ∈ ops, p w.2 = true) (back : ∀ w ∈ rest.head?, p w.2 = false) :
    retained p (ops ++ rest) = rest := by
  unfold retained
  rw [List.dropWhile_append_of_pos front]
  cases rest with
  | nil => rfl
  | cons w rest =>
    have stays := back w rfl
    rw [List.dropWhile_cons_of_neg]
    simp [stays]

theorem flush_cons {ops : List (Int × Operator)} (h : o ≠ .leftParen) :
    flush ((n, o) :: ops) = (flush ops).bind fun t => .ok (.operator o :: t) := by
  cases o with
  | leftParen => exact absurd rfl h
  | union => rfl
  | concatenation => rfl
  | star => rfl
  | rightParen => rfl

theorem finish_eq (y : Yard) :
    y.finish = (flush y.waiting).bind fun t => .ok (y.output ++ t) := rfl

end Yard

namespace Postfix

/-- The postfix tokens of a pattern are what reading it gives. -/
theorem ofText_eq (p : Text) :
    ofText p = (Yard.empty.read (PlacedToken.tokenize p)).bind Yard.finish := by
  rw [ofText, PlacedToken.explicit_eq]
  show (Yard.empty.run _).bind _ = _
  rw [← Yard.run_explicitAfter]
  rfl

end Postfix

end PatternAutomata
