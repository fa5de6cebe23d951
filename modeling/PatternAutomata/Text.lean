/-!
# Texts

A text is a list of characters, one per code point, so that positions, lengths and the order of
texts are those of code points.  This module holds

* `decimal` — an integer in base ten, with `-` in front of a negative one;
* `hexadecimal` — the last digits of a number in base sixteen;
* `joined` — texts set side by side with a separator between neighbours, which is
  `List.intercalate` (`joined_eq_intercalate`) by a recursion that evaluates.

`decimal_injective` states that different integers are written differently.
-/

namespace PatternAutomata

/-- A text as its characters in order. -/
abbrev Text := List Char

/-- The quotation mark `'`. -/
def singleQuote : Char := '\x27'

/-- The quotation mark `"`. -/
def doubleQuote : Char := '\x22'

/-- The sign that starts an escape. -/
def backslash : Char := '\x5c'

/-- The decimal digits of a natural number, most significant first. -/
def digits (n : Nat) : Text := Nat.toDigits 10 n

/-- An integer in base ten. -/
def decimal (n : Int) : Text :=
  if n < 0 then '-' :: digits n.natAbs else digits n.natAbs

/-- The last `width` hexadecimal digits of a number, in lower case. -/
def hexadecimal : (width n : Nat) → Text
  | 0, _ => []
  | width + 1, n => hexadecimal width (n / 16) ++ [Nat.digitChar (n % 16)]

/-- The texts in order, with `separator` between neighbours. -/
def joined (separator : Text) : List Text → Text
  | [] => []
  | [t] => t
  | t :: u :: rest => t ++ separator ++ joined separator (u :: rest)

theorem joined_eq_intercalate (separator : Text) (l : List Text) :
    joined separator l = separator.intercalate l := by
  match l with
  | [] => rfl
  | [t] => exact List.intercalate_singleton.symm
  | t :: u :: rest =>
    rw [joined, joined_eq_intercalate separator (u :: rest), List.intercalate_cons_cons]

/-! ### Numbers are told apart by their digits -/

theorem digits_injective {m n : Nat} (h : digits m = digits n) : m = n := by
  have := congrArg (Nat.ofDigitChars 10 · 0) h
  simpa [digits, Nat.ofDigitChars_toDigits] using this

theorem isDigit_of_mem_digits {n : Nat} {c : Char} (h : c ∈ digits n) : c.isDigit := by
  exact Nat.isDigit_of_mem_toDigits (by decide) (by decide) h

theorem decimal_ne_nil (n : Int) : decimal n ≠ [] := by
  unfold decimal
  split
  · exact List.cons_ne_nil _ _
  · exact Nat.toDigits_ne_nil

theorem decimal_injective {m n : Int} (h : decimal m = decimal n) : m = n := by
  have minus : ∀ k : Nat, '-' ∉ digits k := fun k hk => by
    have := isDigit_of_mem_digits hk
    simp at this
  unfold decimal at h
  split at h <;> split at h
  · have := digits_injective (List.cons.inj h).2
    omega
  · exact absurd (h ▸ List.mem_cons_self) (minus n.natAbs)
  · exact absurd (h ▸ List.mem_cons_self) (minus m.natAbs)
  · have := digits_injective h
    omega

end PatternAutomata
