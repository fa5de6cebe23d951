import Mathlib.Algebra.Group.Nat.Defs
import Mathlib.Data.List.Basic
import PatternAutomata.Text.JsonText

/-!
# Written values can be told apart

Two JSON texts that start with written values of one kind, and go on in a way that no number could,
are equal only if the values are and the rest is.  So values that are written one after the other,
with separators and brackets, are told by the whole text.

* `Breaks` — a text does not go on a number;
* `Legible` — a way of writing values that can be told apart, whatever follows;
* `hexadecimal_injective`, `units_cancel`, `escaped_cancel` — single characters between quotation
  marks;
* `legible_number`, `legible_string`, `legible_boolean` — single values;
* `Legible.comap`, `Legible.pair`, `Legible.enclosed`, `Legible.member`, `Legible.array` — values of
  written parts;
* `Legible.objectLines_injective` — an object over several lines is told by its text.
-/

namespace PatternAutomata

variable {α β : Type} {n m : Nat} {c d : Char} {r s t u : Text}

/-! ### Digits -/

theorem length_hexadecimal (width n : Nat) : (hexadecimal width n).length = width := by
  induction width generalizing n with
  | zero => rfl
  | succ width ih => rw [hexadecimal, List.length_append, ih]; rfl

/-- Numbers of at most so many digits are told apart by them. -/
theorem hexadecimal_injective {width : Nat} (hn : n < 16 ^ width) (hm : m < 16 ^ width)
    (h : hexadecimal width n = hexadecimal width m) : n = m := by
  have digit : ∀ a < 16, ∀ b < 16, Nat.digitChar a = Nat.digitChar b → a = b := by decide
  induction width generalizing n m with
  | zero =>
    rw [Nat.pow_zero] at hn hm
    omega
  | succ width ih =>
    rw [Nat.pow_succ] at hn hm
    -- the digits in front are those of the quotients, the last one is that of the remainders
    rw [hexadecimal, hexadecimal] at h
    obtain ⟨front, last⟩ := List.append_inj' h rfl
    have quotients : n / 16 = m / 16 := ih (by omega) (by omega) front
    have remainders : n % 16 = m % 16 :=
      digit _ (Nat.mod_lt n (by decide)) _ (Nat.mod_lt m (by decide)) (List.cons.inj last).1
    omega

namespace JsonText

/-! ### Characters between quotation marks -/

theorem unit_cancel (hn : n < 0x10000) (hm : m < 0x10000) (h : unit n ++ r = unit m ++ s) :
    n = m ∧ r = s := by
  have lengths : (unit n).length = (unit m).length := by
    simp only [unit, List.length_cons, length_hexadecimal]
  obtain ⟨same, rest⟩ := List.append_inj h lengths
  exact ⟨hexadecimal_injective hn hm (List.cons.inj (List.cons.inj same).2).2, rest⟩

theorem toNat_valid (c : Char) : c.toNat < 0xD800 ∨ 0xDFFF < c.toNat ∧ c.toNat < 0x110000 := c.valid

/-- No character is one of the units of a surrogate pair, so characters are told by their units. -/
theorem units_cancel (h : units c ++ r = units d ++ s) : c = d ∧ r = s := by
  have validc := toNat_valid c
  have validd := toNat_valid d
  unfold units at h
  split at h
  · next small =>
    split at h
    · next small' =>
      obtain ⟨same, rest⟩ := unit_cancel small small' h
      exact ⟨Char.toNat_inj.1 same, rest⟩
    · -- the first unit of a pair is a surrogate, and `c` is none
      rw [List.append_assoc] at h
      have same := (unit_cancel small (by omega) h).1
      omega
  · split at h
    · next small =>
      rw [List.append_assoc] at h
      have same := (unit_cancel (by omega) small h).1
      omega
    · rw [List.append_assoc, List.append_assoc] at h
      obtain ⟨high, h⟩ := unit_cancel (by omega) (by omega) h
      obtain ⟨low, rest⟩ := unit_cancel (by omega) (by omega) h
      exact ⟨Char.toNat_inj.1 (by omega), rest⟩

theorem exists_units_eq (c : Char) : ∃ t, units c = backslash :: 'u' :: t := by
  unfold units
  split
  · exact ⟨_, rfl⟩
  · exact ⟨_, rfl⟩

/-- The character that a short escape stands for. -/
def ofShort (x : Char) : Char :=
  if x = 'n' then '\n' else if x = 'r' then '\r' else if x = 't' then '\t'
  else if x = 'b' then '\x08' else if x = 'f' then '\x0c' else x

/-- The three ways of writing a character: as it is, by a short escape, by its units. -/
theorem escaped_cases (c : Char) :
    (escaped c = [c] ∧ c ≠ backslash ∧ c ≠ doubleQuote) ∨
      (∃ x, x ≠ 'u' ∧ escaped c = [backslash, x] ∧ ofShort x = c) ∨ escaped c = units c := by
  unfold escaped
  split
  · next mark =>
    rcases mark with rfl | rfl
    · exact Or.inr (Or.inl ⟨doubleQuote, by decide, rfl, by decide⟩)
    · exact Or.inr (Or.inl ⟨backslash, by decide, rfl, by decide⟩)
  next plain =>
  split
  · next h => exact Or.inr (Or.inl ⟨'n', by decide, rfl, h.symm⟩)
  split
  · next h => exact Or.inr (Or.inl ⟨'r', by decide, rfl, h.symm⟩)
  split
  · next h => exact Or.inr (Or.inl ⟨'t', by decide, rfl, h.symm⟩)
  split
  · next h => exact Or.inr (Or.inl ⟨'b', by decide, rfl, h.symm⟩)
  split
  · next h => exact Or.inr (Or.inl ⟨'f', by decide, rfl, h.symm⟩)
  split
  · exact Or.inl ⟨rfl, fun h => plain (Or.inr h), fun h => plain (Or.inl h)⟩
  · exact Or.inr (Or.inr rfl)

/-- A character is told by how it is written. -/
theorem escaped_cancel (h : escaped c ++ r = escaped d ++ s) : c = d ∧ r = s := by
  obtain ⟨uc, unitsc⟩ := exists_units_eq c
  obtain ⟨ud, unitsd⟩ := exists_units_eq d
  rcases escaped_cases c with ⟨hc, plainc, _⟩ | ⟨x, hx, hc, meansc⟩ | hc
  · rcases escaped_cases d with ⟨hd, _, _⟩ | ⟨y, _, hd, _⟩ | hd
    · rw [hc, hd] at h
      exact List.cons.inj h
    · rw [hc, hd] at h
      exact absurd (List.cons.inj h).1 plainc
    · rw [hc, hd, unitsd] at h
      exact absurd (List.cons.inj h).1 plainc
  · rcases escaped_cases d with ⟨hd, plaind, _⟩ | ⟨y, _, hd, meansd⟩ | hd
    · rw [hc, hd] at h
      exact absurd (List.cons.inj h).1.symm plaind
    · rw [hc, hd] at h
      obtain ⟨short, rest⟩ := List.cons.inj (List.cons.inj h).2
      rw [← meansc, ← meansd, short]
      exact ⟨rfl, rest⟩
    · rw [hc, hd, unitsd] at h
      exact absurd (List.cons.inj (List.cons.inj h).2).1 hx
  · rcases escaped_cases d with ⟨hd, plaind, _⟩ | ⟨y, hy, hd, _⟩ | hd
    · rw [hc, hd, unitsc] at h
      exact absurd (List.cons.inj h).1.symm plaind
    · rw [hc, hd, unitsc] at h
      exact absurd (List.cons.inj (List.cons.inj h).2).1.symm hy
    · rw [hc, hd] at h
      exact units_cancel h

/-- No written character starts like the end of a string. -/
theorem exists_escaped_eq (c : Char) : ∃ d t, escaped c = d :: t ∧ d ≠ doubleQuote := by
  rcases escaped_cases c with ⟨h, _, plain⟩ | ⟨x, _, h, _⟩ | h
  · exact ⟨c, [], h, plain⟩
  · exact ⟨backslash, [x], h, by decide⟩
  · obtain ⟨t, eq⟩ := exists_units_eq c
    exact ⟨backslash, 'u' :: t, h.trans eq, by decide⟩

theorem flatMap_escaped_cancel
    (h : t.flatMap escaped ++ doubleQuote :: r = u.flatMap escaped ++ doubleQuote :: s) :
    t = u ∧ r = s := by
  -- the end of one string does not stand in the middle of the other
  have ended : ∀ {c : Char} {v r s : Text},
      doubleQuote :: r ≠ (c :: v).flatMap escaped ++ doubleQuote :: s := by
    intro c v r s h
    obtain ⟨d, w, eq, other⟩ := exists_escaped_eq c
    rw [List.flatMap_cons, eq] at h
    exact other (List.cons.inj h).1.symm
  induction t generalizing u with
  | nil =>
    cases u with
    | nil => exact ⟨rfl, (List.cons.inj h).2⟩
    | cons d u => exact absurd h ended
  | cons c t ih =>
    cases u with
    | nil => exact absurd h.symm ended
    | cons d u =>
      rw [List.flatMap_cons, List.flatMap_cons, List.append_assoc, List.append_assoc] at h
      obtain ⟨rfl, tail⟩ := escaped_cancel h
      obtain ⟨rfl, rest⟩ := ih tail
      exact ⟨rfl, rest⟩

/-! ### Ways of writing values -/

/-- Whether a character can stand in a number. -/
def inNumber (c : Char) : Bool := c.isDigit || c = '-'

/-- A text does not go on a number that stands in front of it. -/
def Breaks (t : Text) : Prop := ∀ c ∈ t.head?, inNumber c = false

/-- Values are written in a way in which they can be told apart, whatever breaking text follows, and
from the end of an array. -/
structure Legible (write : α → Text) : Prop where
  cancel : ∀ {a b r s}, Breaks r → Breaks s → write a ++ r = write b ++ s → a = b ∧ r = s
  opens : ∀ a, ∃ c t, write a = c :: t ∧ c ≠ ']'

theorem breaks_cons (h : inNumber c = false) (t : Text) : Breaks (c :: t) := by
  intro d hd
  cases hd
  exact h

theorem Legible.injective {write : α → Text} (h : Legible write) {a b : α}
    (same : write a = write b) : a = b := by
  have ends : Breaks [] := fun c hc => absurd hc (Option.not_mem_none c)
  rw [← List.append_nil (write a), ← List.append_nil (write b)] at same
  exact (h.cancel ends ends same).1

/-! ### Single values -/

theorem inNumber_of_mem_decimal {k : Int} (h : c ∈ decimal k) : inNumber c = true := by
  have digit : c ∈ digits k.natAbs → inNumber c = true := by
    intro h
    rw [inNumber, isDigit_of_mem_digits h, Bool.true_or]
  unfold decimal at h
  split at h
  · rcases List.mem_cons.1 h with rfl | h
    · rfl
    · exact digit h
  · exact digit h

theorem takeWhile_decimal_append (k : Int) (h : Breaks r) :
    (decimal k ++ r).takeWhile inNumber = decimal k := by
  have stops : r.takeWhile inNumber = [] := by
    cases r with
    | nil => rfl
    | cons c r => rw [List.takeWhile_cons_of_neg (Bool.eq_false_iff.1 (h c rfl))]
  rw [List.takeWhile_append_of_pos fun c hc => inNumber_of_mem_decimal hc, stops, List.append_nil]

theorem legible_number : Legible number where
  cancel := by
    intro a b r s hr hs h
    have h : decimal a ++ r = decimal b ++ s := h
    have same : decimal a = decimal b := by
      rw [← takeWhile_decimal_append a hr, h, takeWhile_decimal_append b hs]
    rw [same] at h
    exact ⟨decimal_injective same, List.append_cancel_left h⟩
  opens := by
    intro a
    show ∃ c t, decimal a = c :: t ∧ c ≠ ']'
    cases eq : decimal a with
    | nil => exact absurd eq (decimal_ne_nil a)
    | cons c t =>
      refine ⟨c, t, rfl, ?_⟩
      rintro rfl
      have inside : ']' ∈ decimal a := by
        rw [eq]
        exact List.mem_cons_self
      exact absurd (inNumber_of_mem_decimal inside) (by decide)

theorem legible_string : Legible string where
  cancel := by
    intro a b r s _ _ h
    unfold string at h
    rw [List.append_assoc, List.append_assoc] at h
    exact flatMap_escaped_cancel (List.cons.inj h).2
  opens := fun _ => ⟨doubleQuote, _, rfl, by decide⟩

theorem legible_boolean : Legible boolean where
  cancel := by
    intro a b r s _ _ h
    cases a <;> cases b
    · exact ⟨rfl, List.append_cancel_left h⟩
    · exact absurd (List.cons.inj h).1 (by decide)
    · exact absurd (List.cons.inj h).1 (by decide)
    · exact ⟨rfl, List.append_cancel_left h⟩
  opens := by
    intro a
    cases a
    · exact ⟨'f', _, rfl, by decide⟩
    · exact ⟨'t', _, rfl, by decide⟩

/-! ### Values of written parts -/

namespace Legible

variable {write : α → Text} {writeOther : β → Text} {l k : List α}

/-- Values that are told by what is written for them. -/
theorem comap (h : Legible write) {f : β → α} (injective : ∀ a b, f a = f b → a = b) :
    Legible fun b => write (f b) where
  cancel := by
    intro a b r s hr hs eq
    obtain ⟨same, rest⟩ := h.cancel hr hs eq
    exact ⟨injective a b same, rest⟩
  opens := fun b => h.opens (f b)

/-- Two values with a separator. -/
theorem pair (h : Legible write) (h' : Legible writeOther) (hc : inNumber c = false) (t : Text) :
    Legible fun p : α × β => write p.1 ++ (c :: t) ++ writeOther p.2 where
  cancel := by
    rintro ⟨a, a'⟩ ⟨b, b'⟩ r s hr hs eq
    simp only [List.append_assoc] at eq
    obtain ⟨rfl, (tail : (c :: t) ++ (writeOther a' ++ r) = (c :: t) ++ (writeOther b' ++ s))⟩ :=
      h.cancel (breaks_cons hc _) (breaks_cons hc _) eq
    obtain ⟨rfl, rest⟩ := h'.cancel hr hs (List.append_cancel_left tail)
    exact ⟨rfl, rest⟩
  opens := by
    rintro ⟨a, a'⟩
    obtain ⟨d, u, eq, other⟩ := h.opens a
    refine ⟨d, u ++ (c :: t) ++ writeOther a', ?_, other⟩
    simp only [eq, List.cons_append]

/-- A value between brackets. -/
theorem enclosed (h : Legible write) (hc : c ≠ ']') (hd : inNumber d = false) :
    Legible fun a => c :: write a ++ [d] where
  cancel := by
    intro a b r s _ _ eq
    simp only [List.cons_append, List.append_assoc, List.nil_append] at eq
    obtain ⟨rfl, tail⟩ :=
      h.cancel (breaks_cons hd _) (breaks_cons hd _) (List.cons.inj eq).2
    exact ⟨rfl, (List.cons.inj tail).2⟩
  opens := fun _ => ⟨c, _, rfl, hc⟩

/-- A member of an object. -/
theorem keyed (h : Legible write) : Legible fun m : Text × α => JsonText.member (m.1, write m.2) :=
  legible_string.pair h (c := ':') (by decide) [' ']

/-- A member of an object with a known key. -/
theorem member (h : Legible write) (key : Text) : Legible fun a => JsonText.member (key, write a) :=
  h.keyed.comap (f := fun a => (key, a)) fun _ _ same => (Prod.mk.inj same).2

theorem breaks_flatMap (write : α → Text) (hc : inNumber c = false) (hd : inNumber d = false)
    (l : List α) (t r : Text) :
    Breaks (l.flatMap (fun a => (c :: t) ++ write a) ++ d :: r) := by
  cases l with
  | nil => exact breaks_cons hd r
  | cons a l => exact breaks_cons hc _

/-- The values after the first one in a list, up to its end. -/
theorem flatMap_cancel (h : Legible write) (hc : inNumber c = false) (hd : inNumber d = false)
    (apart : c ≠ d)
    (eq : l.flatMap (fun a => (c :: t) ++ write a) ++ d :: r =
      k.flatMap (fun a => (c :: t) ++ write a) ++ d :: s) : l = k ∧ r = s := by
  induction l generalizing k with
  | nil =>
    cases k with
    | nil => exact ⟨rfl, (List.cons.inj eq).2⟩
    | cons b k => exact absurd (List.cons.inj eq).1.symm apart
  | cons a l ih =>
    cases k with
    | nil => exact absurd (List.cons.inj eq).1 apart
    | cons b k =>
      simp only [List.flatMap_cons, List.append_assoc] at eq
      -- a separator or the end of the list follows a value, and neither goes on a number
      obtain ⟨rfl, tail⟩ := h.cancel (breaks_flatMap write hc hd l t r)
        (breaks_flatMap write hc hd k t s) (List.append_cancel_left eq)
      obtain ⟨rfl, rest⟩ := ih tail
      exact ⟨rfl, rest⟩

end Legible

theorem joined_cons (separator first : Text) (l : List Text) :
    joined separator (first :: l) = first ++ l.flatMap (separator ++ ·) := by
  induction l generalizing first with
  | nil => exact (List.append_nil first).symm
  | cons t l ih => rw [joined, ih, List.flatMap_cons, List.append_assoc, List.append_assoc]

/-- Written values with separators between them. -/
theorem joined_map_cons (separator : Text) (write : α → Text) (a : α) (l : List α) :
    joined separator ((a :: l).map write) =
      write a ++ l.flatMap fun b => separator ++ write b := by
  rw [List.map_cons, joined_cons, List.flatMap_map]

namespace Legible

variable {write : α → Text} {l k : List α}

/-- Values with separators between them, up to the end of the list. -/
theorem joined_cancel (h : Legible write) (hc : inNumber c = false) (hd : inNumber d = false)
    (apart : c ≠ d) {a b : α}
    (eq : joined (c :: t) ((a :: l).map write) ++ d :: r =
      joined (c :: t) ((b :: k).map write) ++ d :: s) : a :: l = b :: k ∧ r = s := by
  rw [joined_map_cons, joined_map_cons, List.append_assoc, List.append_assoc] at eq
  obtain ⟨rfl, tail⟩ := h.cancel (breaks_flatMap write hc hd l t r)
    (breaks_flatMap write hc hd k t s) eq
  obtain ⟨rfl, rest⟩ := h.flatMap_cancel hc hd apart tail
  exact ⟨rfl, rest⟩

/-- An array of values. -/
theorem array (h : Legible write) : Legible fun l : List α => JsonText.array (l.map write) where
  cancel := by
    intro l k r s _ _ eq
    have eq : joined ", ".toList (l.map write) ++ ']' :: r =
        joined ", ".toList (k.map write) ++ ']' :: s := by
      simpa [JsonText.array] using eq
    -- an array without values ends where another one has its first value
    have ended : ∀ {a : α} {k : List α} {r s : Text},
        ']' :: r ≠ joined ", ".toList ((a :: k).map write) ++ ']' :: s := by
      intro a k r s same
      obtain ⟨d, u, first, other⟩ := h.opens a
      rw [joined_map_cons, first] at same
      exact other (List.cons.inj same).1.symm
    cases l with
    | nil =>
      cases k with
      | nil => exact ⟨rfl, (List.cons.inj eq).2⟩
      | cons b k => exact absurd eq ended
    | cons a l =>
      cases k with
      | nil => exact absurd eq.symm ended
      | cons b k => exact h.joined_cancel (c := ',') (t := [' ']) rfl rfl (by decide) eq
  opens := fun _ => ⟨'[', _, rfl, by decide⟩

/-- An object with a line for each member is told by its text. -/
theorem objectLines_injective {l k : List (Text × α)} (h : Legible write)
    (same : JsonText.objectLines (l.map fun m => (m.1, write m.2)) =
      JsonText.objectLines (k.map fun m => (m.1, write m.2))) : l = k := by
  have lines : ∀ (m : Text × α) (l : List (Text × α)),
      JsonText.objectLines ((m :: l).map fun m => (m.1, write m.2)) =
        "\x7b\n    ".toList ++ (joined ",\n    ".toList
          ((m :: l).map fun m => JsonText.member (m.1, write m.2)) ++ ['\n', '\x7d']) := by
    intro m l
    show "\x7b\n    ".toList ++ joined ",\n    ".toList
      (((m :: l).map fun m => (m.1, write m.2)).map JsonText.member) ++ "\n\x7d".toList = _
    rw [List.map_map, List.append_assoc]
    rfl
  cases l with
  | nil =>
    cases k with
    | nil => rfl
    | cons n k =>
      rw [lines] at same
      exact absurd (List.cons.inj (List.cons.inj same).2).1 (by decide)
  | cons m l =>
    cases k with
    | nil =>
      rw [lines] at same
      exact absurd (List.cons.inj (List.cons.inj same).2).1 (by decide)
    | cons n k =>
      rw [lines, lines] at same
      exact (h.keyed.joined_cancel (c := ',') (d := '\n') (t := "\n    ".toList) rfl rfl (by decide)
        (List.append_cancel_left same)).1

end Legible

end JsonText

end PatternAutomata
