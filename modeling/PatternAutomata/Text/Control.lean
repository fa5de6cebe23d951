import PatternAutomata.Text

/-!
# Control sequences

A terminal takes some sequences of characters as orders rather than as text.  Such a control
sequence starts with the character U+001B and an opening bracket.  Parameters, from `0` to `?`, and
then intermediates, from the space to `/`, may follow, and one character from `@` to `~` ends it.
Messages are written without control sequences.

* `afterControl?` — what follows the control sequence at the start of a text, if there is one;
* `afterControl?_eq_some_iff` — it is what the parts of the sequence leave, and since no character
  belongs to two kinds of parts there is only one way to tell them apart;
* `withoutControls` — a text without its control sequences;
* `withoutControls_eq_self` — only texts with U+001B in them are changed.
-/

namespace PatternAutomata

/-- The character that starts a control sequence. -/
def escapeCharacter : Char := '\x1b'

/-- Whether a character can be a parameter of a control sequence: one from `0` to `?`. -/
def isControlParameter (c : Char) : Bool := decide (0x30 ≤ c.toNat) && decide (c.toNat ≤ 0x3F)

/-- Whether a character can stand between the parameters and the end of a control sequence: one
from the space to `/`. -/
def isControlIntermediate (c : Char) : Bool := decide (0x20 ≤ c.toNat) && decide (c.toNat ≤ 0x2F)

/-- Whether a character can end a control sequence: one from `@` to `~`. -/
def isControlFinal (c : Char) : Bool := decide (0x40 ≤ c.toNat) && decide (c.toNat ≤ 0x7E)

/-- What follows the control sequence at the start of a text, if the text starts with one. -/
def afterControl? : Text → Option Text
  | c :: '[' :: rest =>
    if c = escapeCharacter then
      match (rest.dropWhile isControlParameter).dropWhile isControlIntermediate with
      | [] => none
      | d :: after => if isControlFinal d then some after else none
    else none
  | _ => none

/-! ### The parts of a control sequence -/

theorem isControlParameter_of_intermediate {c : Char} (h : isControlIntermediate c = true) :
    isControlParameter c = false := by
  simp only [isControlIntermediate, isControlParameter, Bool.and_eq_true, Bool.and_eq_false_iff,
    decide_eq_true_eq, decide_eq_false_iff_not] at h ⊢
  omega

theorem isControlParameter_of_final {c : Char} (h : isControlFinal c = true) :
    isControlParameter c = false := by
  simp only [isControlParameter, isControlFinal, Bool.and_eq_true, Bool.and_eq_false_iff,
    decide_eq_true_eq, decide_eq_false_iff_not] at h ⊢
  omega

theorem isControlIntermediate_of_final {c : Char} (h : isControlFinal c = true) :
    isControlIntermediate c = false := by
  simp only [isControlIntermediate, isControlFinal, Bool.and_eq_true, Bool.and_eq_false_iff,
    decide_eq_true_eq, decide_eq_false_iff_not] at h ⊢
  omega

/-- A run of characters of a kind goes up to the next character that is not of the kind. -/
theorem dropWhile_run {p : Char → Bool} {run rest : Text} (kind : ∀ c ∈ run, p c = true)
    (stop : ∀ c ∈ rest.head?, p c = false) : (run ++ rest).dropWhile p = rest := by
  rw [List.dropWhile_append_of_pos kind]
  cases rest with
  | nil => rfl
  | cons c rest => rw [List.dropWhile_cons_of_neg (by simp [stop c rfl])]

/-- A text starts with a control sequence and goes on with `after` just if it falls apart in this
way. -/
theorem afterControl?_eq_some_iff {t after : Text} :
    afterControl? t = some after ↔
      ∃ parameters intermediates : Text, ∃ final : Char,
        (∀ c ∈ parameters, isControlParameter c = true)
          ∧ (∀ c ∈ intermediates, isControlIntermediate c = true) ∧ isControlFinal final = true
          ∧ t = escapeCharacter :: '[' :: (parameters ++ (intermediates ++ final :: after)) := by
  constructor
  · intro h
    unfold afterControl? at h
    split at h
    · next c rest =>
      split at h
      · next escape =>
        split at h
        · exact absurd h nofun
        · next d later eq =>
          split at h
          · next ends =>
            cases h
            refine ⟨rest.takeWhile isControlParameter,
              (rest.dropWhile isControlParameter).takeWhile isControlIntermediate, d,
              List.all_eq_true.1 List.all_takeWhile, List.all_eq_true.1 List.all_takeWhile, ends,
              ?_⟩
            rw [← eq, List.takeWhile_append_dropWhile, List.takeWhile_append_dropWhile, escape]
          · exact absurd h nofun
      · exact absurd h nofun
    · exact absurd h nofun
  · rintro ⟨parameters, intermediates, final, areParameters, areIntermediates, ends, rfl⟩
    have first : (parameters ++ (intermediates ++ final :: after)).dropWhile isControlParameter
        = intermediates ++ final :: after := by
      refine dropWhile_run areParameters fun c hc => ?_
      cases intermediates with
      | nil =>
        cases hc
        exact isControlParameter_of_final ends
      | cons d _ =>
        cases hc
        exact isControlParameter_of_intermediate (areIntermediates c List.mem_cons_self)
    have second : (intermediates ++ final :: after).dropWhile isControlIntermediate
        = final :: after := by
      refine dropWhile_run areIntermediates fun c hc => ?_
      cases hc
      exact isControlIntermediate_of_final ends
    simp [afterControl?, first, second, ends]

theorem length_lt_of_afterControl? {t after : Text} (h : afterControl? t = some after) :
    after.length < t.length := by
  obtain ⟨parameters, intermediates, final, _, _, _, rfl⟩ := afterControl?_eq_some_iff.1 h
  simp only [List.length_cons, List.length_append]
  omega

theorem afterControl?_eq_none {c : Char} (h : c ≠ escapeCharacter) (rest : Text) :
    afterControl? (c :: rest) = none := by
  unfold afterControl?
  split
  · next c' _ eq =>
    cases eq
    rw [if_neg h]
  · rfl

/-! ### Texts without control sequences -/

/-- A text without its control sequences. -/
def withoutControls : Text → Text
  | [] => []
  | c :: rest =>
    match h : afterControl? (c :: rest) with
    | some after =>
      have := length_lt_of_afterControl? h
      withoutControls after
    | none => c :: withoutControls rest
termination_by t => t.length
decreasing_by
  · assumption
  · exact Nat.lt_succ_self rest.length

/-- A text without the character that starts control sequences stays as it is. -/
theorem withoutControls_eq_self {t : Text} (h : escapeCharacter ∉ t) : withoutControls t = t := by
  induction t with
  | nil => rw [withoutControls]
  | cons c rest ih =>
    simp only [List.mem_cons, not_or] at h
    have plain := afterControl?_eq_none (Ne.symm h.1) rest
    rw [withoutControls]
    split
    · next after eq =>
      rw [plain] at eq
      exact absurd eq nofun
    · rw [ih h.2]

end PatternAutomata
