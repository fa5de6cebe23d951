import PatternAutomata.Proofs.Automaton.Listing
import PatternAutomata.Proofs.Compilation.Thompson
import PatternAutomata.Proofs.Pattern.Pending

/-!
# What building a postfix expression makes

Building a postfix expression takes two fresh states for every literal and one for every union and
every star, and the automaton has exactly these.  A literal is read by one transition, so the
transitions that read a symbol, in the order of their sources, read the literals in their order.  All
other transitions are silent, and none leads to the start state.

* `footprint`, `Regex.size_eq` — the number of states, counted from the tokens;
* `Regex.mem_ends_automaton_union`, `Regex.mem_ends_automaton_concat`,
  `Regex.mem_ends_automaton_star` — the transitions of the automaton of an expression;
* `Regex.start_not_mem_ends` — none leads to the start state;
* `Regex.readings`, `Regex.readings_automaton` — those that read a symbol, by recursion;
* `build_accounts_for_tokens` — all this for a postfix sequence.
-/

namespace PatternAutomata

open Automaton

variable {ts us : List Token} {q e low : State} {l : Label} {c : Symbol} {t : Transition}

/-! ### Counting tokens -/

/-- The number of states that a sequence of tokens asks for. -/
def footprint (ts : List Token) : Nat :=
  2 * ts.countP Token.isLiteral + ts.count (.operator .union) + ts.count (.operator .star)

theorem footprint_append (ts us : List Token) :
    footprint (ts ++ us) = footprint ts + footprint us := by
  unfold footprint
  rw [List.countP_append, List.count_append, List.count_append]
  omega

namespace Regex

variable {r s : Regex}

theorem size_eq (r : Regex) : r.size = footprint r.postorder := by
  induction r with
  | literal c => rfl
  | union r s ihr ihs =>
    rw [postorder, footprint_append, footprint_append, ← ihr, ← ihs]
    rfl
  | concat r s ihr ihs =>
    rw [postorder, footprint_append, footprint_append, ← ihr, ← ihs]
    rfl
  | star r ih =>
    rw [postorder, footprint_append, ← ih]
    rfl

/-! ### The transitions of the automaton of an expression -/

theorem mem_states_automaton : q ∈ (r.automaton low).states ↔ low ≤ q ∧ q < low + r.size :=
  (r.fragment_automaton low).mem_states_iff q

theorem wellFormed_automaton (r : Regex) (low : State) : (r.automaton low).WellFormed :=
  (r.fragment_automaton low).wellFormed

theorem disjoint_automaton (r s : Regex) (low : State) :
    (r.automaton low).states.Disjoint (s.automaton (low + r.size)).states :=
  (r.fragment_automaton low).disjoint (s.fragment_automaton (low + r.size))

theorem mem_ends_automaton_literal :
    e ∈ ((literal c).automaton low).ends q l ↔ q = low ∧ l = some c ∧ e = low + 1 := by
  rw [automaton, ends_compact]
  exact mem_ends_symbolAt

theorem mem_ends_automaton_union :
    e ∈ ((r.union s).automaton low).ends q l ↔
      (q = low + r.size + s.size ∧ l = none ∧
        (e = (r.automaton low).start ∨ e = (s.automaton (low + r.size)).start)) ∨
      e ∈ (r.automaton low).ends q l ∨ e ∈ (s.automaton (low + r.size)).ends q l := by
  have hr := r.fragment_automaton low
  have hs := s.fragment_automaton (low + r.size)
  rw [automaton, ends_compact]
  exact mem_ends_unionFrom hr.wellFormed hs.wellFormed (hr.disjoint hs)
    (hr.high_not_mem (Int.le_of_lt hs.lt)) (hs.high_not_mem (Int.le_refl _))

theorem mem_ends_automaton_concat :
    e ∈ ((r.concat s).automaton low).ends q l ↔
      e ∈ (r.automaton low).ends q l ∨ e ∈ (s.automaton (low + r.size)).ends q l ∨
      (q ∈ (r.automaton low).accepting ∧ l = none ∧ e = (s.automaton (low + r.size)).start) := by
  rw [automaton, ends_compact]
  exact mem_ends_followedBy (r.wellFormed_automaton low) (s.wellFormed_automaton _)
    (disjoint_automaton r s low)

theorem mem_ends_automaton_star :
    e ∈ (r.star.automaton low).ends q l ↔
      (q = low + r.size ∧ l = none ∧ e = (r.automaton low).start) ∨
      e ∈ (r.automaton low).ends q l ∨
      (q ∈ (r.automaton low).accepting ∧ l = none ∧ e = (r.automaton low).start) := by
  have hr := r.fragment_automaton low
  rw [automaton, ends_compact]
  exact mem_ends_iteratedFrom hr.wellFormed (hr.high_not_mem (Int.le_refl _))

/-- No transition leads to the start state.  A concatenation keeps the start state of its left
operand, whose transitions stay as they are; the other start states are new. -/
theorem start_not_mem_ends (r : Regex) (low q : State) (l : Label) :
    (r.automaton low).start ∉ (r.automaton low).ends q l := by
  induction r generalizing low with
  | literal c =>
    intro h
    exact Int.ne_of_lt (Int.lt_succ low) (mem_ends_automaton_literal.1 h).2.2
  | union r s ihr ihs =>
    have hr := r.fragment_automaton low
    have hs := s.fragment_automaton (low + r.size)
    have newR := hr.high_not_mem (Int.le_of_lt hs.lt)
    have newS := hs.high_not_mem (Int.le_refl _)
    show low + r.size + s.size ∉ ((r.union s).automaton low).ends q l
    intro h
    rcases mem_ends_automaton_union.1 h with ⟨_, _, same | same⟩ | step | step
    · exact newR (same ▸ hr.wellFormed.start_mem)
    · exact newS (same ▸ hs.wellFormed.start_mem)
    · exact newR (hr.wellFormed.mem_states_of_mem_ends step)
    · exact newS (hs.wellFormed.mem_states_of_mem_ends step)
  | concat r s ihr ihs =>
    have hr := r.wellFormed_automaton low
    have hs := s.wellFormed_automaton (low + r.size)
    have apart := disjoint_automaton r s low _ hr.start_mem
    intro h
    rcases mem_ends_automaton_concat.1 h with step | step | ⟨_, _, same⟩
    · exact ihr low step
    · exact apart (hs.mem_states_of_mem_ends step)
    · exact apart (same ▸ hs.start_mem)
  | star r ih =>
    have hr := r.fragment_automaton low
    have new := hr.high_not_mem (Int.le_refl _)
    show low + r.size ∉ (r.star.automaton low).ends q l
    intro h
    rcases mem_ends_automaton_star.1 h with ⟨_, _, same⟩ | step | ⟨_, _, same⟩
    · exact new (same ▸ hr.wellFormed.start_mem)
    · exact new (hr.wellFormed.mem_states_of_mem_ends step)
    · exact new (same ▸ hr.wellFormed.start_mem)

/-! ### Transitions that read a symbol -/

/-- One transition for each literal of an expression, from left to right, if its automaton has the
states from `low`. -/
def readings : Regex → (low : State) → List Transition
  | literal c, low => [⟨low, some c, low + 1⟩]
  | union r s, low => r.readings low ++ s.readings (low + r.size)
  | concat r s, low => r.readings low ++ s.readings (low + r.size)
  | star r, low => r.readings low

/-- The transitions that a composition adds read nothing. -/
theorem not_connecting {P Q : Prop} (reads : l.isSome = true) : ¬ (P ∧ l = none ∧ Q) := by
  rintro ⟨_, rfl, _⟩
  cases reads

theorem mem_readings_iff (r : Regex) (low q : State) (l : Label) (e : State) :
    ⟨q, l, e⟩ ∈ r.readings low ↔ l.isSome = true ∧ e ∈ (r.automaton low).ends q l := by
  induction r generalizing low with
  | literal c =>
    rw [readings, mem_ends_automaton_literal, List.mem_singleton, Transition.mk.injEq]
    refine (and_iff_right_of_imp ?_).symm
    rintro ⟨_, rfl, _⟩
    rfl
  | union r s ihr ihs =>
    rw [readings, List.mem_append, ihr, ihs, ← and_or_left, mem_ends_automaton_union]
    refine and_congr_right fun reads => ?_
    exact (or_iff_right (not_connecting reads)).symm
  | concat r s ihr ihs =>
    rw [readings, List.mem_append, ihr, ihs, ← and_or_left, mem_ends_automaton_concat, ← or_assoc]
    refine and_congr_right fun reads => ?_
    exact (or_iff_left (not_connecting reads)).symm
  | star r ih =>
    rw [readings, ih, mem_ends_automaton_star, ← or_assoc, or_right_comm]
    refine and_congr_right fun reads => ?_
    exact (or_iff_right (not_or.2 ⟨not_connecting reads, not_connecting reads⟩)).symm

/-- The sources are among the states, so those of a right operand come after those of the left. -/
theorem pairwise_append_readings (r s : Regex) (low : State)
    (hr : (r.readings low).Pairwise fun t u => t.source < u.source)
    (hs : (s.readings (low + r.size)).Pairwise fun t u => t.source < u.source) :
    (r.readings low ++ s.readings (low + r.size)).Pairwise fun t u => t.source < u.source := by
  refine List.pairwise_append.2 ⟨hr, hs, ?_⟩
  intro t ht u hu
  have below := (r.wellFormed_automaton low).source_mem_states ((mem_readings_iff _ _ _ _ _).1 ht).2
  have above := (s.wellFormed_automaton _).source_mem_states ((mem_readings_iff _ _ _ _ _).1 hu).2
  exact Int.lt_of_lt_of_le (mem_states_automaton.1 below).2 (mem_states_automaton.1 above).1

theorem pairwise_readings (r : Regex) (low : State) :
    (r.readings low).Pairwise fun t u => t.source < u.source := by
  induction r generalizing low with
  | literal c => exact List.pairwise_singleton _ _
  | union r s ihr ihs => exact pairwise_append_readings r s low (ihr low) (ihs _)
  | concat r s ihr ihs => exact pairwise_append_readings r s low (ihr low) (ihs _)
  | star r ih => exact ih low

/-- The literals are read in their order. -/
theorem map_label_readings (r : Regex) (low : State) :
    (r.readings low).map Transition.label = (Token.literals r.postorder).map some := by
  induction r generalizing low with
  | literal c => rfl
  | union r s ihr ihs =>
    rw [readings, postorder, Token.literals_append, Token.literals_append, List.map_append,
      List.map_append, List.map_append, ihr, ihs]
    exact (List.append_nil _).symm
  | concat r s ihr ihs =>
    rw [readings, postorder, Token.literals_append, Token.literals_append, List.map_append,
      List.map_append, List.map_append, ihr, ihs]
    exact (List.append_nil _).symm
  | star r ih =>
    rw [readings, postorder, Token.literals_append, List.map_append, ih]
    exact (List.append_nil _).symm

/-- The automaton of an expression has these transitions that read a symbol, and no others. -/
theorem readings_automaton (r : Regex) (low : State) :
    (r.automaton low).readings = r.readings low :=
  (r.wellFormed_automaton low).readings_eq (r.pairwise_readings low) fun _ =>
    mem_readings_iff r low _ _ _

end Regex

/-- **Accounting.**  Building a postfix expression with `L` literals, `U` unions and `K` stars takes
the next `2 L + U + K` numbers, and they are the states of the automaton.  Its alphabet are the
literals.  It has `L` transitions that read a symbol: their sources are all different, and in the
order of these they read the literals in their order.  No transition leads to the start state. -/
theorem build_accounts_for_tokens (h : IsPostfix ts) (counter : State) :
    ∃ A, (build ts).runFrom counter = (.ok A, counter + footprint ts) ∧
      (∀ q, q ∈ A.states ↔ counter ≤ q ∧ q < counter + footprint ts) ∧
      (∀ c, c ∈ A.alphabet ↔ Token.literal c ∈ ts) ∧
      (∀ q c e, e ∈ A.ends q (some c) ↔ ⟨q, some c, e⟩ ∈ A.readings) ∧
      A.readings.length = ts.countP Token.isLiteral ∧
      A.readings.map Transition.label = (Token.literals ts).map some ∧
      A.readings.Pairwise (fun s t => s.source < t.source) ∧
      ∀ q l, A.start ∉ A.ends q l := by
  obtain ⟨r, rfl⟩ := isPostfix_iff.1 h
  have fragment := r.fragment_automaton counter
  have labels := r.map_label_readings counter
  have count : (r.readings counter).length = r.postorder.countP Token.isLiteral := by
    rw [← Token.length_literals, ← List.length_map Transition.label, labels, List.length_map]
  rw [← r.size_eq]
  refine ⟨r.automaton counter, runFrom_build (Regex.ofPostfix_postorder r) counter,
    fragment.mem_states_iff, fragment.mem_alphabet_iff, ?_, ?_, ?_, ?_,
    r.start_not_mem_ends counter⟩
  · intro q c e
    rw [r.readings_automaton, Regex.mem_readings_iff]
    exact (and_iff_right rfl).symm
  · rw [r.readings_automaton, count]
  · rw [r.readings_automaton, labels]
  · rw [r.readings_automaton]
    exact r.pairwise_readings counter

theorem build_accounts_for_union_star :
    IsPostfix [.literal 'a', .literal 'b', .operator .union, .operator .star] ∧
      ∃ A, (build [.literal 'a', .literal 'b', .operator .union, .operator .star]).runFrom 5 =
          (.ok A, 11) ∧
        (∀ q, q ∈ A.states ↔ 5 ≤ q ∧ q < 11) ∧ A.readings.length = 2 := by
  have valid : IsPostfix [.literal 'a', .literal 'b', .operator .union, .operator .star] :=
    isPostfix_iff.2 ⟨.star (.union (.literal 'a') (.literal 'b')), rfl⟩
  obtain ⟨A, run, states, _, _, count, _⟩ := build_accounts_for_tokens valid 5
  exact ⟨valid, A, run, states, count⟩

end PatternAutomata
