import PatternAutomata.Text

/-!
# Lines

The lines of a text.  A line feed, a carriage return, or a carriage return followed by a line feed
ends a line; what ends a line is no part of it.  Characters after the last end are one more line.

* `lines` — the lines;
* `lines_of_ended` — texts without line ends, each ended by a line feed, are read back as they are;
* `withLineFeeds` — a text in which no carriage return is kept before a line feed;
* `withLineFeeds_eq_self` — only texts with carriage returns in them are changed.
-/

namespace PatternAutomata

/-- The lines of a text. -/
def lines : Text → List Text
  | [] => []
  | '\r' :: '\n' :: rest => [] :: lines rest
  | c :: rest =>
    if c = '\n' ∨ c = '\r' then [] :: lines rest
    else if rest.isEmpty then [[c]]
    else
      match lines rest with
      | [] => [[c]]
      | line :: later => (c :: line) :: later

theorem lines_append_break {t : Text} (feed : '\n' ∉ t) (carriage : '\r' ∉ t) (rest : Text) :
    lines (t ++ '\n' :: rest) = t :: lines rest := by
  induction t with
  | nil => simp [lines]
  | cons c t ih =>
    simp only [List.mem_cons, not_or] at feed carriage
    have tail := ih feed.2 carriage.2
    rw [List.cons_append, lines]
    · simp [Ne.symm feed.1, Ne.symm carriage.1, tail]
    · intro r hc _
      exact carriage.1 hc.symm

/-- Texts without line ends, each ended by a line feed, are read back as they are. -/
theorem lines_of_ended {texts : List Text} (h : ∀ t ∈ texts, '\n' ∉ t ∧ '\r' ∉ t) :
    lines (texts.flatMap fun t => t ++ ['\n']) = texts := by
  induction texts with
  | nil => rfl
  | cons t texts ih =>
    have head := h t List.mem_cons_self
    have tail := ih fun u hu => h u (List.mem_cons_of_mem _ hu)
    rw [List.flatMap_cons, List.append_assoc, List.singleton_append,
      lines_append_break head.1 head.2, tail]

/-- A text with a line feed wherever a carriage return is followed by one. -/
def withLineFeeds : Text → Text
  | [] => []
  | '\r' :: '\n' :: rest => '\n' :: withLineFeeds rest
  | c :: rest => c :: withLineFeeds rest

/-- A text without carriage returns stays as it is. -/
theorem withLineFeeds_eq_self {t : Text} (h : '\r' ∉ t) : withLineFeeds t = t := by
  induction t with
  | nil => rfl
  | cons c t ih =>
    simp only [List.mem_cons, not_or] at h
    rw [withLineFeeds, ih h.2]
    intro _ hc _
    exact h.1 hc.symm

end PatternAutomata
