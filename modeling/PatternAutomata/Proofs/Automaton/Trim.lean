import PatternAutomata.Proofs.Automaton.Composition
import PatternAutomata.Proofs.Automaton.Exactness

/-!
# Trim automata

In a trim automaton every state lies on a path from the start state to an accepting state.  The
compositions of trim automata that share no states are trim; a concatenation is so because each
operand has a path all the way through it.  A text leads nowhere in a trim automaton exactly if no
accepted text begins with it, and so the one state of the subset automaton from which no accepting
state is reached is that of the empty set.

* `Automaton.Trim` — every state is reached and leads to acceptance;
* `trim_unionFrom`, `trim_followedBy`, `trim_iteratedFrom` — the compositions are trim;
* `Trim.statesAfter_eq_empty_iff` — the texts that lead nowhere;
* `Trim.exists_deadName_iff`, `Trim.hopeless_iff` — the state of the empty set.
-/

namespace PatternAutomata

namespace Automaton

variable {A B : Automaton} {start q base : State} {c : Symbol} {w : Text}

/-- Every state is reached from the start state, and an accepting state is reached from it. -/
structure Trim (A : Automaton) : Prop where
  reached : ∀ q ∈ A.states, ∃ u, A.Path A.start u q
  leads : ∀ q ∈ A.states, ∃ v, ∃ r ∈ A.accepting, A.Path q v r

/-- Some text goes all the way through a trim automaton. -/
theorem Trim.exists_accepts (hA : A.WellFormed) (h : A.Trim) : ∃ w, A.Accepts w :=
  h.leads A.start hA.start_mem

theorem Trim.compact (h : A.Trim) : A.compact.Trim := by
  have more : ∀ q l r, r ∈ A.ends q l → r ∈ A.compact.ends q l := by
    intro q l r hr
    rwa [ends_compact]
  constructor
  · intro q hq
    obtain ⟨u, path⟩ := h.reached q hq
    exact ⟨u, path.mono more⟩
  · intro q hq
    obtain ⟨v, r, hr, path⟩ := h.leads q hq
    exact ⟨v, r, hr, path.mono more⟩

/-! ### Elementary automata -/

theorem trim_symbolAt (c : Symbol) (start : State) : (symbolAt c start).Trim := by
  have step : (symbolAt c start).Path start [c] (start + 1) :=
    .read (mem_ends_symbolAt.2 ⟨rfl, rfl, rfl⟩) (.refl _)
  have last : start + 1 ∈ (symbolAt c start).accepting := SortedSet.mem_singleton.2 rfl
  have two : ∀ q ∈ (symbolAt c start).states, q = start ∨ q = start + 1 := by
    intro q hq
    exact (List.mem_cons.1 (SortedSet.mem_ofList.1 hq)).imp id List.mem_singleton.1
  constructor
  · intro q hq
    rcases two q hq with rfl | rfl
    · exact ⟨[], .refl _⟩
    · exact ⟨[c], step⟩
  · intro q hq
    rcases two q hq with rfl | rfl
    · exact ⟨[c], q + 1, last, step⟩
    · exact ⟨[], start + 1, last, .refl _⟩

theorem trim_epsilonAt (state : State) : (epsilonAt state).Trim := by
  constructor
  · intro q hq
    rw [SortedSet.mem_singleton.1 hq]
    exact ⟨[], .refl _⟩
  · intro q hq
    exact ⟨[], q, hq, .refl q⟩

/-! ### Compositions -/

section Compositions

variable (hA : A.WellFormed) (trimA : A.Trim)

include hA trimA

theorem trim_unionFrom (hB : B.WellFormed) (trimB : B.Trim) (apart : A.states.Disjoint B.states)
    (newA : start ∉ A.states) (newB : start ∉ B.states) : (unionFrom start A B).Trim := by
  have step := @mem_ends_unionFrom A B
  have first : ∀ {m q : State} {u : Text}, m = A.start ∨ m = B.start →
      (unionFrom start A B).Path m u q → (unionFrom start A B).Path start u q :=
    fun hm => .silent ((step hA hB apart newA newB).2 (Or.inl ⟨rfl, rfl, hm⟩))
  have left : ∀ q l r, r ∈ A.ends q l → r ∈ (unionFrom start A B).ends q l :=
    fun q l r hr => (step hA hB apart newA newB).2 (Or.inr (Or.inl hr))
  have right : ∀ q l r, r ∈ B.ends q l → r ∈ (unionFrom start A B).ends q l :=
    fun q l r hr => (step hA hB apart newA newB).2 (Or.inr (Or.inr hr))
  constructor
  · intro q hq
    rcases SortedSet.mem_insert.1 hq with rfl | hq
    · exact ⟨[], .refl _⟩
    · rcases SortedSet.mem_union.1 hq with hq | hq
      · obtain ⟨u, path⟩ := trimA.reached q hq
        exact ⟨u, first (Or.inl rfl) (path.mono left)⟩
      · obtain ⟨u, path⟩ := trimB.reached q hq
        exact ⟨u, first (Or.inr rfl) (path.mono right)⟩
  · intro q hq
    rcases SortedSet.mem_insert.1 hq with rfl | hq
    · obtain ⟨v, r, hr, path⟩ := trimA.exists_accepts hA
      exact ⟨v, r, SortedSet.mem_union.2 (Or.inl hr), first (Or.inl rfl) (path.mono left)⟩
    · rcases SortedSet.mem_union.1 hq with hq | hq
      · obtain ⟨v, r, hr, path⟩ := trimA.leads q hq
        exact ⟨v, r, SortedSet.mem_union.2 (Or.inl hr), path.mono left⟩
      · obtain ⟨v, r, hr, path⟩ := trimB.leads q hq
        exact ⟨v, r, SortedSet.mem_union.2 (Or.inr hr), path.mono right⟩

/-- A state of one operand is reached through the other, or leads to acceptance through it. -/
theorem trim_followedBy (hB : B.WellFormed) (trimB : B.Trim)
    (apart : A.states.Disjoint B.states) : (followedBy A B).Trim := by
  have step := @mem_ends_followedBy A B
  have left : ∀ q l r, r ∈ A.ends q l → r ∈ (followedBy A B).ends q l :=
    fun q l r hr => (step hA hB apart).2 (Or.inl hr)
  have right : ∀ q l r, r ∈ B.ends q l → r ∈ (followedBy A B).ends q l :=
    fun q l r hr => (step hA hB apart).2 (Or.inr (Or.inl hr))
  have across : ∀ {m q : State} {u : Text}, m ∈ A.accepting →
      (followedBy A B).Path B.start u q → (followedBy A B).Path m u q :=
    fun hm => .silent ((step hA hB apart).2 (Or.inr (Or.inr ⟨hm, rfl, rfl⟩)))
  obtain ⟨u, m, hm, through⟩ := trimA.exists_accepts hA
  obtain ⟨v, r, hr, beyond⟩ := trimB.exists_accepts hB
  constructor
  · intro q hq
    rcases SortedSet.mem_union.1 hq with hq | hq
    · obtain ⟨u, path⟩ := trimA.reached q hq
      exact ⟨u, path.mono left⟩
    · obtain ⟨w, path⟩ := trimB.reached q hq
      exact ⟨u ++ w, (through.mono left).append (across hm (path.mono right))⟩
  · intro q hq
    rcases SortedSet.mem_union.1 hq with hq | hq
    · obtain ⟨w, m, hm, path⟩ := trimA.leads q hq
      exact ⟨w ++ v, r, hr, (path.mono left).append (across hm (beyond.mono right))⟩
    · obtain ⟨w, s, hs, path⟩ := trimB.leads q hq
      exact ⟨w, s, hs, path.mono right⟩

theorem trim_iteratedFrom (new : start ∉ A.states) : (iteratedFrom start A).Trim := by
  have step := @mem_ends_iteratedFrom A
  have more : ∀ q l r, r ∈ A.ends q l → r ∈ (iteratedFrom start A).ends q l :=
    fun q l r hr => (step hA new).2 (Or.inr (Or.inl hr))
  constructor
  · intro q hq
    rcases SortedSet.mem_insert.1 hq with rfl | hq
    · exact ⟨[], .refl _⟩
    · obtain ⟨u, path⟩ := trimA.reached q hq
      exact ⟨u, .silent ((step hA new).2 (Or.inl ⟨rfl, rfl, rfl⟩)) (path.mono more)⟩
  · intro q hq
    rcases SortedSet.mem_insert.1 hq with rfl | hq
    · exact ⟨[], _, SortedSet.mem_insert.2 (Or.inl rfl), .refl _⟩
    · obtain ⟨v, r, hr, path⟩ := trimA.leads q hq
      exact ⟨v, r, SortedSet.mem_insert.2 (Or.inr hr), path.mono more⟩

/-! ### Texts that lead nowhere -/

/-- A text leads nowhere exactly if no accepted text begins with it. -/
theorem Trim.statesAfter_eq_empty_iff :
    A.statesAfter w = ∅ ↔ ∀ v, ¬ A.Accepts (w ++ v) := by
  rw [SortedSet.eq_empty_iff]
  constructor
  · rintro nowhere v ⟨r, _, path⟩
    obtain ⟨m, first, _⟩ := path.split
    exact nowhere m ((mem_statesAfter_iff hA).2 first)
  · intro none m hm
    obtain ⟨v, r, hr, last⟩ := trimA.leads m (statesAfter_subset hA w m hm)
    exact none v ⟨r, hr, ((mem_statesAfter_iff hA).1 hm).append last⟩

/-- The subset automaton has a state of the empty set exactly if some text begins no accepted
text. -/
theorem Trim.exists_deadName_iff :
    (∃ q ∈ (A.subsetAutomaton base).states,
        (A.subsetAutomaton base).names.get? q = some deadName) ↔
      ∃ w, A.Over w ∧ ∀ v, ¬ A.Accepts (w ++ v) := by
  rw [exists_deadName_subsetAutomaton_iff hA]
  simp only [trimA.statesAfter_eq_empty_iff hA]

/-- No accepting state is reached from the state of the empty set, and from no other is none
reached. -/
theorem Trim.hopeless_iff (hq : q ∈ (A.subsetAutomaton base).states) :
    (∀ v r, (A.subsetAutomaton base).Path q v r → r ∉ (A.subsetAutomaton base).accepting) ↔
      (A.subsetAutomaton base).names.get? q = some deadName := by
  have hD : (A.subsetAutomaton base).IsDfa := isDfa_subsetAutomaton hA
  obtain ⟨w, hw, rfl⟩ := exists_walk_subsetAutomaton hA hq
  rw [get?_names_walk_subsetAutomaton hA hw, Option.some.injEq, subsetName_eq_deadName_iff,
    trimA.statesAfter_eq_empty_iff hA]
  have here := (hD.path_iff hD.wellFormed.start_mem).2 ⟨hw, rfl⟩
  constructor
  · intro hopeless v accepts
    have accepted : (A.subsetAutomaton base).Accepts (w ++ v) :=
      (accepts_subsetAutomaton hA _).2 accepts
    obtain ⟨r, hr, path⟩ := accepted
    obtain ⟨m, first, last⟩ := path.split
    rw [← ((hD.path_iff hD.wellFormed.start_mem).1 first).2] at last
    exact hopeless v r last hr
  · intro none v r path hr
    exact none v ((accepts_subsetAutomaton hA _).1 ⟨r, hr, here.append path⟩)

end Compositions

end Automaton

end PatternAutomata
