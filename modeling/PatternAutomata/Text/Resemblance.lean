import PatternAutomata.Occurrence
import PatternAutomata.Text

/-!
# Resemblance of texts

How far two texts agree: take the longest block of characters that both share, and do the same with
what is left of the block in both texts and with what is right of it.  Two texts resemble each other
if the blocks make up at least three fifths of their characters.

* `agreement` — the total length of the blocks, at most the length of either text
  (`agreement_le_left`, `agreement_le_right`);
* `resembles`, `resembles_iff` — three fifths of the characters agree;
* `nearest` — the texts that resemble a given one most.
-/

namespace PatternAutomata

/-- The number of characters up to the first difference. -/
def sharedPrefix : Text → Text → Nat
  | c :: s, d :: t => if c = d then sharedPrefix s t + 1 else 0
  | _, _ => 0

theorem sharedPrefix_le_left (s t : Text) : sharedPrefix s t ≤ s.length := by
  fun_induction sharedPrefix s t with
  | case1 s d t ih => simpa using ih
  | case2 => simp
  | case3 => simp

theorem sharedPrefix_le_right (s t : Text) : sharedPrefix s t ≤ t.length := by
  fun_induction sharedPrefix s t with
  | case1 s d t ih => simpa using ih
  | case2 => simp
  | case3 => simp

/-- The same characters in a row in two texts: where they start in the one and in the other, and
how many they are. -/
structure SharedBlock where
  left : Nat
  right : Nat
  size : Nat
  deriving DecidableEq, Repr

/-- The block from given places of two texts up to the first difference, unless it is empty. -/
def blockAt? (s t : Text) (i j : Nat) : Option SharedBlock :=
  if sharedPrefix (s.drop i) (t.drop j) = 0 then none
  else some ⟨i, j, sharedPrefix (s.drop i) (t.drop j)⟩

/-- The blocks of two texts, by their places in the first and then by those in the second. -/
def sharedBlocks (s t : Text) : List SharedBlock :=
  (List.range s.length).flatMap fun i => (List.range t.length).filterMap (blockAt? s t i)

/-- The first of the longest blocks of two texts. -/
def longestBlock? (s t : Text) : Option SharedBlock :=
  (sharedBlocks s t).find? fun b => (sharedBlocks s t).all fun c => c.size ≤ b.size

theorem bounds_of_longestBlock? {s t : Text} {b : SharedBlock} (h : longestBlock? s t = some b) :
    0 < b.size ∧ b.left + b.size ≤ s.length ∧ b.right + b.size ≤ t.length := by
  have mem := List.mem_of_find?_eq_some h
  simp only [sharedBlocks, List.mem_flatMap, List.mem_filterMap, List.mem_range, blockAt?] at mem
  obtain ⟨i, hi, j, hj, eq⟩ := mem
  split at eq
  · exact absurd eq nofun
  · next nonempty =>
    cases eq
    have left := sharedPrefix_le_left (s.drop i) (t.drop j)
    have right := sharedPrefix_le_right (s.drop i) (t.drop j)
    simp only [List.length_drop] at left right
    refine ⟨Nat.pos_of_ne_zero nonempty, ?_, ?_⟩ <;> dsimp only <;> omega

/-- The total length of the blocks that two texts share. -/
def agreement (s t : Text) : Nat :=
  match h : longestBlock? s t with
  | none => 0
  | some b =>
    have := bounds_of_longestBlock? h
    agreement (s.take b.left) (t.take b.right) + b.size
      + agreement (s.drop (b.left + b.size)) (t.drop (b.right + b.size))
termination_by s.length
decreasing_by
  all_goals
    simp only [List.length_take, List.length_drop]
    omega

theorem agreement_le (s t : Text) : agreement s t ≤ s.length ∧ agreement s t ≤ t.length := by
  fun_induction agreement s t with
  | case1 => simp
  | case2 s t b h bounds before after =>
    simp only [List.length_take, List.length_drop] at before after
    omega

theorem agreement_le_left (s t : Text) : agreement s t ≤ s.length := (agreement_le s t).1

theorem agreement_le_right (s t : Text) : agreement s t ≤ t.length := (agreement_le s t).2

/-- Whether two texts have at least three fifths of their characters in shared blocks.  The lengths
are compared first, because texts of very different lengths cannot. -/
def resembles (s t : Text) : Bool :=
  decide (3 * (s.length + t.length) ≤ 10 * min s.length t.length)
    && decide (3 * (s.length + t.length) ≤ 10 * agreement s t)

theorem resembles_iff {s t : Text} :
    resembles s t = true ↔ 3 * (s.length + t.length) ≤ 10 * agreement s t := by
  have bounds := agreement_le s t
  simp only [resembles, Bool.and_eq_true, decide_eq_true_eq]
  omega

/-- Whether `s` has no smaller share of its characters in common with `word` than `t` has. -/
def isNoFarther (word s t : Text) : Bool :=
  decide (agreement t word * (s.length + word.length)
    ≤ agreement s word * (t.length + word.length))

/-- Those of the texts, at most `count`, that resemble a word most, in the order of the texts.
Among equals the later ones are taken. -/
def nearest (count : Nat) (texts : List Text) (word : Text) : List Text :=
  let alike := texts.filter fun t => resembles t word
  let best := (alike.reverse.mergeSort (isNoFarther word)).take count
  alike.filter fun t => occursIn t best

end PatternAutomata
