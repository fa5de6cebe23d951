import PatternAutomata.SortedSet

/-!
# Sets of consecutive integers

Whether an integer is a member of a set can be read off two bounds if the members are consecutive.
States are handed out one after the other, so the states of most automata are.

* `span?` — the bounds of a set of consecutive integers;
* `holds` — whether an integer is a member, by the bounds if there are any;
* `holds_span?` — the bounds make no difference.
-/

namespace PatternAutomata

/-- Whether a list is `a`, `a + 1`, `a + 2` and so on. -/
def countsFrom : (a : Int) → List Int → Bool
  | _, [] => true
  | a, b :: l => decide (b = a) && countsFrom (a + 1) l

theorem mem_iff_of_countsFrom {a q : Int} {l : List Int} (h : countsFrom a l = true) :
    q ∈ l ↔ a ≤ q ∧ q < a + l.length := by
  induction l generalizing a with
  | nil =>
    simp only [List.not_mem_nil, List.length_nil, false_iff]
    omega
  | cons b l ih =>
    simp only [countsFrom, Bool.and_eq_true, decide_eq_true_eq] at h
    simp only [List.mem_cons, ih h.2, List.length_cons, h.1]
    omega

namespace SortedSet

/-- The least member and the number after the greatest one, if the members are consecutive. -/
def span? (s : SortedSet Int) : Option (Int × Int) :=
  match s.toList with
  | [] => none
  | a :: l => if countsFrom a (a :: l) then some (a, a + (l.length + 1)) else none

/-- Whether `q` is a member of a set with the given bounds, if there are any. -/
def holds (s : SortedSet Int) (bounds : Option (Int × Int)) (q : Int) : Bool :=
  match bounds with
  | some (low, high) => decide (low ≤ q) && decide (q < high)
  | none => occursIn q s.toList

/-- The bounds of a set make no difference. -/
theorem holds_span? {s : SortedSet Int} {q : Int} : s.holds s.span? q = true ↔ q ∈ s := by
  rw [mem_def]
  unfold holds span?
  split
  · next low high eq =>
    split at eq
    · exact absurd eq nofun
    · next a l members =>
      split at eq
      · next counts =>
        cases eq
        rw [members, mem_iff_of_countsFrom counts]
        simp
      · exact absurd eq nofun
  · exact occursIn_iff

end SortedSet

end PatternAutomata
