import Mathlib.Algebra.Group.Nat.Defs
import PatternAutomata.Proofs.Automaton.Naming
import PatternAutomata.Tabulated

/-!
# The worklist of the subset construction

The sets of states can be found with a worklist: the first waiting set is taken off and, for each
symbol, the set that it leads to gets the next free number and waits, if it is new.  The empty set
is treated apart: it gets a number when it is met for the first time, and never waits.  The list
grows while it is consumed.  But every set that waits has just been numbered, no set is numbered
twice, and only sets of states are numbered at all.

* `Worklist`, `Worklist.meet`, `Worklist.turn?`, `Worklist.Turns` — the worklist, what is done for
  one symbol, for one waiting set, and for several;
* `Worklist.automaton?` — the automaton that is read off in the end;
* `Stage` — how far the sets of states have been discovered, and `Stage.next`;
* `Worklist.atStage` — the worklist at a stage, and `Worklist.Turns.exists_stage`, that it always is
  at some stage;
* `Worklist.exists_complete` — a worklist that has not been emptied yet can be;
* `worklist_gives_consecutive_states` — what it gives, and after how many turns.
-/

namespace PatternAutomata

namespace Automaton

variable {A : Automaton} {q c : State} {a : Symbol} {S T : SortedSet State}
  {done todo found waiting sets taken : List (SortedSet State)}

/-- Where a search for the sets of states stands: the numbers of the sets that have been met, that
of the empty set, the transitions, the sets that wait, and the next free number. -/
structure Worklist where
  numbers : List (SortedSet State × State)
  dead : Option State
  moves : List (Origin × SortedSet State)
  queue : List (SortedSet State)
  counter : State

namespace Worklist

/-- The first set has a number and waits. -/
def start (A : Automaton) (counter : State) : Worklist :=
  ⟨[(A.initial, counter)], none, [], [A.initial], counter + 1⟩

/-- The number of a set with members, if it has been met. -/
def number? (w : Worklist) (S : SortedSet State) : Option State := OrderedMap.lookIn S w.numbers

/-- Enters a transition. -/
def move (w : Worklist) (source : State) (a : Symbol) (target : State) : Worklist :=
  { w with moves := w.moves ++ [(⟨source, some a⟩, .singleton target)] }

/-- Meets the set that a symbol leads to from the set `S` with the number `source`. -/
def meet (A : Automaton) (S : SortedSet State) (source : State) (w : Worklist) (a : Symbol) :
    Worklist :=
  if (A.after S a).isEmpty then
    match w.dead with
    | some d => w.move source a d
    | none =>
      { w with
        dead := some w.counter
        counter := w.counter + 1 }.move source a w.counter
  else
    match w.number? (A.after S a) with
    | some q => w.move source a q
    | none =>
      { w with
        numbers := w.numbers ++ [(A.after S a, w.counter)]
        queue := w.queue ++ [A.after S a]
        counter := w.counter + 1 }.move source a w.counter

/-- Takes the first waiting set off the list and meets the sets that the symbols lead to. -/
def turn? (A : Automaton) (w : Worklist) : Option (SortedSet State × Worklist) :=
  match w.queue with
  | [] => none
  | S :: rest => (w.number? S).map fun source =>
    (S, A.alphabet.toList.foldl (meet A S source) { w with queue := rest })

/-- Turns one after the other, with the sets that they take off the list. -/
inductive Turns (A : Automaton) (first : Worklist) : List (SortedSet State) → Worklist → Prop where
  | none : Turns A first [] first
  | next {taken : List (SortedSet State)} {S : SortedSet State} {v w : Worklist} :
      Turns A first taken v → turn? A v = some (S, w) → Turns A first (taken ++ [S]) w

/-- The numbers that have been given. -/
def states (w : Worklist) : SortedSet State := .ofList (w.numbers.map Prod.snd ++ w.dead.toList)

/-- The automaton on the sets that have been met, in which the empty set leads to itself. -/
def automaton? (A : Automaton) (w : Worklist) : Option Automaton :=
  (w.number? A.initial).map fun start =>
    { alphabet := A.alphabet
      states := w.states
      transitions := .ofList <| w.moves ++ w.dead.toList.flatMap fun d =>
        A.alphabet.toList.map fun a => (⟨d, some a⟩, .singleton d)
      start := start
      accepting := .ofList
        ((w.numbers.filter fun e => !decide (e.1.Disjoint A.accepting)).map Prod.snd)
      kind := .deterministic
      names := .ofList <| w.numbers.map (fun e => (e.2, setText e.1)) ++
        w.dead.toList.map fun d => (d, deadName) }

end Worklist

/-- Two automata with the same parts, whatever the order of their tables. -/
structure Agrees (A B : Automaton) : Prop where
  alphabet : B.alphabet = A.alphabet
  states : B.states = A.states
  ends : ∀ q l, B.ends q l = A.ends q l
  start : B.start = A.start
  accepting : B.accepting = A.accepting
  kind : B.kind = A.kind
  names : ∀ q, B.names.get? q = A.names.get? q

/-! ### Sets with members -/

/-- The sets with members. -/
def inhabited (sets : List (SortedSet State)) : List (SortedSet State) :=
  sets.filter fun S => !S.isEmpty

theorem mem_inhabited : S ∈ inhabited sets ↔ S ∈ sets ∧ S ≠ ∅ := by
  rw [inhabited, List.mem_filter, Bool.not_eq_true', SortedSet.isEmpty_eq_false_iff_ne_empty]

theorem inhabited_append (sets more : List (SortedSet State)) :
    inhabited (sets ++ more) = inhabited sets ++ inhabited more := List.filter_append sets more

theorem inhabited_singleton (h : S ≠ ∅) : inhabited [S] = [S] :=
  List.filter_eq_self.2 fun T hT => by
    rw [List.mem_singleton.1 hT, SortedSet.isEmpty_eq_false_iff_ne_empty.2 h]
    rfl

theorem inhabited_cons (h : S ≠ ∅) : inhabited (S :: sets) = S :: inhabited sets := by
  rw [← List.singleton_append, inhabited_append, inhabited_singleton h, List.singleton_append]

theorem inhabited_empty_cons : inhabited (∅ :: sets) = inhabited sets := rfl

theorem inhabited_snoc_empty : inhabited (sets ++ [∅]) = inhabited sets := by
  rw [inhabited_append, inhabited_empty_cons]
  exact List.append_nil (inhabited sets)

theorem after_empty (hA : A.WellFormed) (a : Symbol) : A.after ∅ a = ∅ := by
  rw [SortedSet.eq_empty_iff]
  intro q hq
  obtain ⟨p, _, hp, _⟩ := (mem_after_iff hA).1 hq
  exact SortedSet.not_mem_empty p hp

theorem initial_ne_empty (hA : A.WellFormed) : A.initial ≠ ∅ := by
  have start : A.start ∈ A.initial := (mem_closure_iff hA).2
    ⟨A.start, SortedSet.mem_singleton.2 rfl, .refl A.start⟩
  exact SortedSet.ne_empty_of_mem start

/-! ### Discovering in stages -/

/-- The sets that the symbols lead to. -/
def successors (A : Automaton) (S : SortedSet State) : List (SortedSet State) :=
  A.alphabet.toList.map (A.after S)

/-- The sets of states have been discovered as far as `done` and `todo`, and the symbols have been
followed from those of `done`. -/
structure Stage (A : Automaton) (done todo : List (SortedSet State)) : Prop where
  nodup : (done ++ todo).Nodup
  within : ∀ S ∈ done ++ todo, S ⊆ A.states
  leads : ∃ fuel, fuel + done.length = Nat.pow 2 A.states.size ∧
    exploreFrom A.successors fuel done todo = A.subsets

theorem stage_start (hA : A.WellFormed) : Stage A [] [A.initial] where
  nodup := List.nodup_singleton A.initial
  within := by
    intro S hS
    rw [List.mem_singleton.1 hS]
    exact statesAfter_subset hA []
  leads := ⟨_, rfl, rfl⟩

namespace Stage

/-- There are not more sets than a set of states has subsets. -/
theorem length_le (h : Stage A done todo) :
    (done ++ todo).length ≤ Nat.pow 2 A.states.size := by
  obtain ⟨sets, size, all⟩ := exists_subsets A.states
  rw [← size]
  exact h.nodup.length_le_of_subset fun S hS => all S (h.within S hS)

/-- What has been discovered are the first ones of the sets. -/
theorem exists_subsets_eq (h : Stage A done todo) : ∃ rest, A.subsets = done ++ todo ++ rest := by
  obtain ⟨fuel, _, leads⟩ := h.leads
  rw [← leads]
  exact exploreFrom_eq_append A.successors fuel done todo

/-- When nothing is left to do, all sets have been discovered. -/
theorem eq_subsets (h : Stage A done []) : done = A.subsets := by
  obtain ⟨fuel, _, leads⟩ := h.leads
  rw [← leads]
  cases fuel with
  | zero => exact (List.append_nil done).symm
  | succ fuel => rfl

/-- What has been found once the next set is done. -/
theorem found_next (done todo more : List (SortedSet State)) (S : SortedSet State) :
    done ++ [S] ++ (todo ++ more) = done ++ S :: todo ++ more := by
  rw [← List.append_assoc, List.append_assoc done, List.singleton_append]

/-- The next set is done: the sets that the symbols lead to are discovered. -/
theorem next (hA : A.WellFormed) (h : Stage A done (S :: todo)) :
    Stage A (done ++ [S]) (todo ++ newcomers (done ++ S :: todo) (A.successors S)) := by
  refine ⟨?_, ?_, ?_⟩
  · rw [found_next]
    refine List.nodup_append.2 ⟨h.nodup, nodup_newcomers _ _, ?_⟩
    rintro T hT _ new rfl
    exact (mem_newcomers.1 new).2 hT
  · rw [found_next]
    intro T hT
    rcases List.mem_append.1 hT with hT | hT
    · exact h.within T hT
    · obtain ⟨a, _, rfl⟩ := List.mem_map.1 (mem_newcomers.1 hT).1
      exact fun q hq => mem_states_of_mem_after hA hq
  · obtain ⟨fuel, budget, leads⟩ := h.leads
    have bound := h.length_le
    rw [List.length_append, List.length_cons] at bound
    obtain ⟨fuel, rfl⟩ : ∃ k, fuel = k + 1 := ⟨fuel - 1, by omega⟩
    refine ⟨fuel, ?_, leads⟩
    rw [List.length_append, List.length_singleton]
    omega

/-- The empty set brings nothing new. -/
theorem skip (hA : A.WellFormed) (h : Stage A done (∅ :: todo)) : Stage A (done ++ [∅]) todo := by
  have nothing : newcomers (done ++ ∅ :: todo) (A.successors ∅) = [] := by
    apply newcomers_eq_nil
    intro T hT
    obtain ⟨a, _, rfl⟩ := List.mem_map.1 hT
    rw [after_empty hA]
    exact List.mem_append_right done List.mem_cons_self
  have next := h.next hA
  rwa [nothing, List.append_nil] at next

end Stage

namespace Worklist

variable {w : Worklist} {moves : List (Origin × SortedSet State)}

/-! ### The worklist at a stage -/

/-- The transitions from a set of states. -/
def row (A : Automaton) (c : State) (S : SortedSet State) : List (Origin × SortedSet State) :=
  A.alphabet.toList.map fun a =>
    (⟨numbered A.subsets c S, some a⟩, .singleton (numbered A.subsets c (A.after S a)))

/-- A worklist when given sets have been found and some of them wait. -/
def snapshot (A : Automaton) (c : State) (found waiting : List (SortedSet State))
    (moves : List (Origin × SortedSet State)) : Worklist where
  numbers := tabulated (inhabited found) (numbered A.subsets c)
  dead := if ∅ ∈ found then some (numbered A.subsets c ∅) else none
  moves := moves
  queue := inhabited waiting
  counter := c + found.length

/-- The worklist at a stage of the discovery. -/
def atStage (A : Automaton) (c : State) (done todo : List (SortedSet State)) : Worklist :=
  snapshot A c (done ++ todo) todo ((inhabited done).flatMap (row A c))

theorem number?_snapshot : (snapshot A c found waiting moves).number? S =
    if S ∈ inhabited found then some (numbered A.subsets c S) else none :=
  OrderedMap.lookIn_tabulated (inhabited found) (numbered A.subsets c) S

/-- The next new set is numbered by the counter. -/
theorem numbered_eq_counter (new : T ∉ found)
    (next : ∃ rest, A.subsets = found ++ T :: rest) :
    numbered A.subsets c T = c + found.length := by
  obtain ⟨rest, eq⟩ := next
  unfold numbered
  rw [eq, List.idxOf_append_of_notMem new, List.idxOf_cons_self, Nat.add_zero]

/-- The empty set gets a number. -/
theorem snapshot_snoc_empty (number : numbered A.subsets c ∅ = c + found.length)
    (moves : List (Origin × SortedSet State)) :
    { snapshot A c found waiting moves with
      dead := some (c + found.length)
      counter := c + found.length + 1 } =
      snapshot A c (found ++ [∅]) (waiting ++ [∅]) moves := by
  have dead : ∅ ∈ found ++ [∅] := List.mem_append_right found List.mem_cons_self
  simp only [snapshot, inhabited_append, inhabited_empty_cons, if_pos dead, number,
    List.length_append, List.length_singleton]
  simp [inhabited, Int.add_assoc]

/-- A set with members gets a number and waits. -/
theorem snapshot_snoc (none : T ≠ ∅) (number : numbered A.subsets c T = c + found.length)
    (moves : List (Origin × SortedSet State)) :
    { snapshot A c found waiting moves with
      numbers := (snapshot A c found waiting moves).numbers ++ [(T, c + found.length)]
      queue := (snapshot A c found waiting moves).queue ++ [T]
      counter := c + found.length + 1 } =
      snapshot A c (found ++ [T]) (waiting ++ [T]) moves := by
  have dead : ∅ ∈ found ++ [T] ↔ ∅ ∈ found := by
    rw [List.mem_append, List.mem_singleton, or_iff_left (Ne.symm none)]
  simp only [snapshot, inhabited_append, inhabited_singleton none, dead, tabulated,
    List.map_append, List.map_singleton, number, List.length_append, List.length_singleton]
  simp [Int.add_assoc]

/-- Meeting a set that has been found before. -/
theorem meet_snapshot_of_mem {source : State} (known : A.after S a ∈ found) :
    meet A S source (snapshot A c found waiting moves) a =
      snapshot A c found waiting
        (moves ++ [(⟨source, some a⟩, .singleton (numbered A.subsets c (A.after S a)))]) := by
  unfold meet
  by_cases none : A.after S a = ∅
  · rw [none] at known ⊢
    have dead : (snapshot A c found waiting moves).dead = some (numbered A.subsets c ∅) :=
      if_pos known
    rw [if_pos (show (∅ : SortedSet State).isEmpty = true from rfl), dead]
    rfl
  · have listed : A.after S a ∈ inhabited found := mem_inhabited.2 ⟨known, none⟩
    rw [if_neg (by rwa [SortedSet.isEmpty_iff_eq_empty]), number?_snapshot, if_pos listed]
    rfl

/-- Meeting a new set. -/
theorem meet_snapshot_of_not_mem {source : State} (new : A.after S a ∉ found)
    (next : ∃ rest, A.subsets = found ++ A.after S a :: rest) :
    meet A S source (snapshot A c found waiting moves) a =
      snapshot A c (found ++ [A.after S a]) (waiting ++ [A.after S a])
        (moves ++ [(⟨source, some a⟩, .singleton (numbered A.subsets c (A.after S a)))]) := by
  have number := numbered_eq_counter (c := c) new next
  unfold meet
  by_cases none : A.after S a = ∅
  · rw [none] at new number ⊢
    have dead : (snapshot A c found waiting moves).dead = Option.none := if_neg new
    rw [if_pos (show (∅ : SortedSet State).isEmpty = true from rfl), dead,
      ← snapshot_snoc_empty number (moves ++ _), number]
    rfl
  · have unlisted : A.after S a ∉ inhabited found := fun h => new (mem_inhabited.1 h).1
    rw [if_neg (by rwa [SortedSet.isEmpty_iff_eq_empty]), number?_snapshot, if_neg unlisted,
      ← snapshot_snoc none number (moves ++ _), number]
    rfl

/-- Meeting the sets that several symbols lead to. -/
theorem foldl_meet_snapshot {source : State} {symbols : List Symbol}
    (waiting : List (SortedSet State))
    (next : ∃ rest, A.subsets = found ++ newcomers found (symbols.map (A.after S)) ++ rest) :
    symbols.foldl (meet A S source) (snapshot A c found waiting moves) =
      snapshot A c (found ++ newcomers found (symbols.map (A.after S)))
        (waiting ++ newcomers found (symbols.map (A.after S)))
        (moves ++ symbols.map fun a =>
          (⟨source, some a⟩, .singleton (numbered A.subsets c (A.after S a)))) := by
  induction symbols generalizing found waiting moves with
  | nil => simp [newcomers]
  | cons a symbols ih =>
    rw [List.map_cons, newcomers] at next ⊢
    by_cases known : A.after S a ∈ found
    · rw [if_pos (occursIn_iff.2 known)] at next ⊢
      rw [List.foldl_cons, meet_snapshot_of_mem known]
      refine (ih waiting next).trans ?_
      rw [List.append_assoc, List.map_cons, List.singleton_append]
    · have same : newcomers (A.after S a :: found) (symbols.map (A.after S))
          = newcomers (found ++ [A.after S a]) (symbols.map (A.after S)) := by
        apply newcomers_congr
        intro T _
        rw [List.mem_cons, List.mem_append, List.mem_singleton, or_comm]
      have first : ∃ rest, A.subsets = found ++ A.after S a :: rest := by
        obtain ⟨rest, eq⟩ := next
        rw [if_neg fun h => known (occursIn_iff.1 h)] at eq
        exact ⟨_, by rw [eq, List.append_assoc, List.cons_append]⟩
      rw [if_neg fun h => known (occursIn_iff.1 h), same] at next ⊢
      rw [List.foldl_cons, meet_snapshot_of_not_mem known first]
      refine (ih _ (by simpa using next)).trans ?_
      rw [List.append_assoc, List.append_assoc, List.append_assoc, List.singleton_append,
        List.map_cons, List.singleton_append]

/-! ### Turns and stages -/

theorem atStage_start (hA : A.WellFormed) (c : State) : start A c = atStage A c [] [A.initial] := by
  have dead : ∅ ∉ [A.initial] := by
    rw [List.mem_singleton]
    exact (initial_ne_empty hA).symm
  unfold atStage snapshot start
  rw [List.nil_append, if_neg dead, inhabited_singleton (initial_ne_empty hA), tabulated,
    List.map_singleton, numbered_initial hA]
  rfl

/-- Sets with members wait in the order of their discovery; the empty set is passed over. -/
theorem atStage_skip (A : Automaton) (c : State) (done todo : List (SortedSet State)) :
    atStage A c done (∅ :: todo) = atStage A c (done ++ [∅]) todo := by
  have shape : done ++ ∅ :: todo = done ++ [∅] ++ todo := by simp
  unfold atStage snapshot
  rw [shape, inhabited_empty_cons, inhabited_snoc_empty]

/-- The first waiting set is the first one from which the symbols have not been followed yet; after
its turn they have been. -/
theorem turn?_atStage (hA : A.WellFormed) (stage : Stage A done (S :: todo)) (some : S ≠ ∅) :
    turn? A (atStage A c done (S :: todo)) = .some (S, atStage A c (done ++ [S])
      (todo ++ newcomers (done ++ S :: todo) (A.successors S))) := by
  have listed : S ∈ inhabited (done ++ S :: todo) :=
    mem_inhabited.2 ⟨List.mem_append_right done List.mem_cons_self, some⟩
  have next : ∃ rest, A.subsets = done ++ S :: todo ++
      newcomers (done ++ S :: todo) (A.alphabet.toList.map (A.after S)) ++ rest := by
    rw [← successors, ← Stage.found_next]
    exact (stage.next hA).exists_subsets_eq
  have queue : (atStage A c done (S :: todo)).queue = S :: inhabited todo := inhabited_cons some
  have source : (atStage A c done (S :: todo)).number? S = .some (numbered A.subsets c S) := by
    rw [atStage, number?_snapshot, if_pos listed]
  unfold turn?
  rw [queue]
  dsimp only
  rw [source, Option.map_some]
  congr 2
  refine (foldl_meet_snapshot todo next).trans ?_
  unfold atStage
  rw [Stage.found_next, inhabited_append, inhabited_singleton some, List.flatMap_append,
    List.flatMap_singleton]
  rfl

/-- The empty sets in front are passed over until a set with members waits. -/
theorem exists_stage_of_queue_eq (hA : A.WellFormed) (stage : Stage A done todo)
    (queue : inhabited todo = S :: sets) : ∃ done' todo', Stage A done' (S :: todo') ∧
      atStage A c done todo = atStage A c done' (S :: todo') ∧
      inhabited done' = inhabited done := by
  induction todo generalizing done with
  | nil => cases queue
  | cons T todo ih =>
    by_cases none : T = ∅
    · subst none
      obtain ⟨done', todo', stage', same, kept⟩ := ih (stage.skip hA) queue
      exact ⟨done', todo', stage', (atStage_skip A c done todo).trans same,
        kept.trans inhabited_snoc_empty⟩
    · rw [inhabited_cons none] at queue
      cases queue
      exact ⟨done, todo, stage, rfl, rfl⟩

/-- If no set with members is left to do, all sets have been found. -/
theorem exists_stage_of_queue_eq_nil (hA : A.WellFormed) (stage : Stage A done todo)
    (queue : inhabited todo = []) :
    atStage A c done todo = atStage A c A.subsets [] ∧ inhabited done = inhabited A.subsets := by
  induction todo generalizing done with
  | nil => rw [stage.eq_subsets]; exact ⟨rfl, rfl⟩
  | cons T todo ih =>
    by_cases none : T = ∅
    · subst none
      obtain ⟨same, all⟩ := ih (stage.skip hA) queue
      exact ⟨(atStage_skip A c done todo).trans same, inhabited_snoc_empty.symm.trans all⟩
    · rw [inhabited_cons none] at queue
      cases queue

/-- A worklist is always at some stage. -/
theorem Turns.exists_stage (hA : A.WellFormed) (h : Turns A (start A c) taken w) :
    ∃ done todo, Stage A done todo ∧ w = atStage A c done todo ∧ taken = inhabited done := by
  induction h with
  | none => exact ⟨[], [A.initial], stage_start hA, atStage_start hA c, rfl⟩
  | @next taken S v w _ turn ih =>
    obtain ⟨done, todo, stage, rfl, rfl⟩ := ih
    cases queue : inhabited todo with
    | nil =>
      have nothing : (atStage A c done todo).queue = [] := queue
      rw [turn?, nothing] at turn
      cases turn
    | cons T rest =>
      obtain ⟨done', todo', stage', same, kept⟩ := exists_stage_of_queue_eq (c := c) hA stage queue
      have some : T ≠ ∅ := by
        have listed : T ∈ inhabited todo := by
          rw [queue]
          exact List.mem_cons_self
        exact (mem_inhabited.1 listed).2
      rw [same, turn?_atStage hA stage' some] at turn
      cases turn
      refine ⟨_, _, stage'.next hA, rfl, ?_⟩
      rw [inhabited_append, kept, inhabited_singleton some]

/-! ### What holds at every moment -/

/-- The sets that have been numbered are those that have had their turn and those that wait. -/
theorem numbers_atStage : (atStage A c done todo).numbers.map Prod.fst =
    inhabited done ++ (atStage A c done todo).queue := by
  show (tabulated (inhabited (done ++ todo)) _).map Prod.fst = inhabited done ++ inhabited todo
  rw [← inhabited_append, tabulated, List.map_map]
  exact List.map_id _

/-- With the empty set, if it is among them, the sets with members are all. -/
theorem mem_flatMap_inhabited {β : Type} {f : SortedSet State → List β} {b : β} :
    b ∈ (inhabited sets).flatMap f ++ (if ∅ ∈ sets then f ∅ else []) ↔ b ∈ sets.flatMap f := by
  simp only [List.mem_append, List.mem_flatMap, mem_inhabited]
  constructor
  · rintro (⟨S, ⟨hS, _⟩, hb⟩ | hb)
    · exact ⟨S, hS, hb⟩
    · split at hb
      · next none => exact ⟨∅, none, hb⟩
      · exact absurd hb List.not_mem_nil
  · rintro ⟨S, hS, hb⟩
    by_cases none : S = ∅
    · subst none
      exact Or.inr (by rwa [if_pos hS])
    · exact Or.inl ⟨S, ⟨hS, none⟩, hb⟩

/-- What is added for the empty set once it has a number. -/
theorem flatMap_dead {β : Type} {g : State → List β} :
    (snapshot A c found waiting moves).dead.toList.flatMap g =
      if ∅ ∈ found then g (numbered A.subsets c ∅) else [] := by
  show (if ∅ ∈ found then some (numbered A.subsets c ∅) else none).toList.flatMap g = _
  split
  · exact List.flatMap_singleton g _
  · rfl

/-- The sets that have been found have the numbers that have been given. -/
theorem mem_states_snapshot : q ∈ (snapshot A c found waiting moves).states ↔
    ∃ S ∈ found, numbered A.subsets c S = q := by
  have each : ∀ sets : List (SortedSet State),
      sets.map (numbered A.subsets c) = sets.flatMap fun S => [numbered A.subsets c S] :=
    fun sets => List.map_eq_flatMap
  have dead : (snapshot A c found waiting moves).dead.toList =
      if ∅ ∈ found then [numbered A.subsets c ∅] else [] := by
    rw [← flatMap_dead (g := fun d => [d])]
    exact (List.flatMap_singleton' _).symm
  have values : (snapshot A c found waiting moves).numbers.map Prod.snd =
      (inhabited found).flatMap fun S => [numbered A.subsets c S] := by
    rw [← each]
    exact List.map_map
  rw [states, SortedSet.mem_ofList, dead, values, mem_flatMap_inhabited, ← each, List.mem_map]

/-- At every stage the numbers that have been given are those from the first one up to the
counter. -/
theorem mem_states_atStage (stage : Stage A done todo) :
    q ∈ (atStage A c done todo).states ↔ c ≤ q ∧ q < (atStage A c done todo).counter := by
  obtain ⟨rest, eq⟩ := stage.exists_subsets_eq
  rw [atStage, mem_states_snapshot]
  refine Iff.trans ?_ (exists_numbered_eq_iff stage.nodup)
  constructor
  · rintro ⟨S, hS, rfl⟩
    exact ⟨S, hS, by rw [eq, numbered_append hS]⟩
  · rintro ⟨S, hS, rfl⟩
    exact ⟨S, hS, by rw [eq, numbered_append hS]⟩

theorem nodup_inhabited (h : sets.Nodup) : (inhabited sets).Nodup := h.sublist List.filter_sublist

/-- There are fewer sets with members than a set of states has subsets. -/
theorem length_inhabited_lt (stage : Stage A done todo) :
    (inhabited (done ++ todo)).length < Nat.pow 2 A.states.size := by
  obtain ⟨sets, size, all⟩ := exists_subsets A.states
  have nodup : (∅ :: inhabited (done ++ todo)).Nodup := by
    refine List.nodup_cons.2 ⟨?_, nodup_inhabited stage.nodup⟩
    intro none
    exact (mem_inhabited.1 none).2 rfl
  rw [← size]
  refine nodup.length_le_of_subset ?_
  intro S hS
  apply all S
  rcases List.mem_cons.1 hS with rfl | hS
  · exact fun q hq => absurd hq (SortedSet.not_mem_empty q)
  · exact stage.within S (mem_inhabited.1 hS).1

/-! ### Emptying the list -/

/-- As long as a set waits there is a turn. -/
theorem Turns.exists_turn (hA : A.WellFormed) (h : Turns A (start A c) taken w)
    (waits : w.queue ≠ []) : ∃ S v, turn? A w = some (S, v) := by
  obtain ⟨done, todo, stage, rfl, _⟩ := h.exists_stage hA
  obtain ⟨S, rest, queue⟩ := List.exists_cons_of_ne_nil (show inhabited todo ≠ [] from waits)
  obtain ⟨done', todo', stage', same, _⟩ := exists_stage_of_queue_eq (c := c) hA stage queue
  have listed : S ∈ inhabited todo := by
    rw [queue]
    exact List.mem_cons_self
  rw [same]
  exact ⟨_, _, turn?_atStage hA stage' (mem_inhabited.1 listed).2⟩

theorem Turns.length_lt (hA : A.WellFormed) (h : Turns A (start A c) taken w) :
    (taken ++ w.queue).length < Nat.pow 2 A.states.size := by
  obtain ⟨done, todo, stage, rfl, rfl⟩ := h.exists_stage hA
  show (inhabited done ++ inhabited todo).length < _
  rw [← inhabited_append]
  exact length_inhabited_lt stage

/-- A worklist can be emptied. -/
theorem exists_complete (hA : A.WellFormed) (h : Turns A (start A c) taken w) :
    ∃ all v, Turns A (start A c) all v ∧ v.queue = [] := by
  generalize budget : Nat.pow 2 A.states.size - taken.length = k
  -- every turn takes a set that has not been taken before
  induction k generalizing taken w with
  | zero =>
    have bound := h.length_lt hA
    rw [List.length_append] at bound
    omega
  | succ k ih =>
    by_cases ended : w.queue = []
    · exact ⟨taken, w, h, ended⟩
    · obtain ⟨S, v, turn⟩ := h.exists_turn hA ended
      refine ih (.next h turn) ?_
      rw [List.length_append, List.length_singleton]
      omega

/-! ### The automaton in the end -/

/-- When no set waits any more, all sets of states have had their turn. -/
theorem Turns.eq_atStage (hA : A.WellFormed) (h : Turns A (start A c) taken w)
    (ended : w.queue = []) : w = atStage A c A.subsets [] := by
  obtain ⟨done, todo, stage, rfl, _⟩ := h.exists_stage hA
  exact (exists_stage_of_queue_eq_nil hA stage ended).1

/-- The transitions in the end are those of the automaton on the sets of states. -/
theorem get?_moves (hA : A.WellFormed) (origin : Origin) :
    (OrderedMap.ofList ((inhabited A.subsets).flatMap (row A c) ++
        (snapshot A c A.subsets waiting moves).dead.toList.flatMap fun d =>
          A.alphabet.toList.map fun a => (⟨d, some a⟩, .singleton d))).get? origin =
      (A.onSubsets A.subsets c).transitions.get? origin := by
  have loops : row A c ∅ = A.alphabet.toList.map fun a =>
      (⟨numbered A.subsets c ∅, some a⟩, .singleton (numbered A.subsets c ∅)) := by
    apply List.map_congr_left
    intro a _
    rw [after_empty hA]
  rw [flatMap_dead, ← loops]
  apply OrderedMap.get?_ofList_congr fun e => mem_flatMap_inhabited
  intro origin ends other hends hother
  obtain ⟨S, hS, a, _, rfl, rfl⟩ := mem_subsetTable_iff.1 (mem_flatMap_inhabited.1 hends)
  obtain ⟨T, hT, b, _, same, rfl⟩ := mem_subsetTable_iff.1 (mem_flatMap_inhabited.1 hother)
  obtain ⟨number, label⟩ := Origin.mk.inj same
  cases label
  rw [eq_of_numbered_eq hS number]

/-- So are the names. -/
theorem get?_names (q : State) :
    (OrderedMap.ofList ((snapshot A c A.subsets waiting moves).numbers.map
        (fun e => (e.2, setText e.1)) ++
        (snapshot A c A.subsets waiting moves).dead.toList.map fun d => (d, deadName))).get? q =
      (A.onSubsets A.subsets c).names.get? q := by
  have named : (snapshot A c A.subsets waiting moves).numbers.map (fun e => (e.2, setText e.1)) =
      (inhabited A.subsets).flatMap fun S => [(numbered A.subsets c S, subsetName S)] := by
    rw [← List.map_eq_flatMap]
    refine List.map_map.trans (List.map_congr_left fun S hS => ?_)
    rw [subsetName_of_ne_empty (mem_inhabited.1 hS).2]
    rfl
  rw [named, List.map_eq_flatMap, flatMap_dead]
  apply OrderedMap.get?_ofList_congr
  · intro e
    refine mem_flatMap_inhabited.trans ?_
    rw [← List.map_eq_flatMap]
    rfl
  · intro q t u ht hu
    obtain ⟨S, hS, named⟩ := List.mem_flatMap.1 (mem_flatMap_inhabited.1 ht)
    obtain ⟨T, hT, other⟩ := List.mem_flatMap.1 (mem_flatMap_inhabited.1 hu)
    obtain ⟨rfl, rfl⟩ := Prod.mk.inj (List.mem_singleton.1 named)
    obtain ⟨number, rfl⟩ := Prod.mk.inj (List.mem_singleton.1 other)
    rw [eq_of_numbered_eq hS number]

/-- And so are the accepting states. -/
theorem mem_accepting_snapshot :
    q ∈ ((snapshot A c A.subsets waiting moves).numbers.filter fun e =>
        !decide (e.1.Disjoint A.accepting)).map Prod.snd ↔
      q ∈ (A.onSubsets A.subsets c).accepting := by
  have accepts : ∀ S : SortedSet State, (!decide (S.Disjoint A.accepting)) = true ↔
      ∃ q, q ∈ S ∧ q ∈ A.accepting := by
    intro S
    rw [← SortedSet.not_disjoint_iff, Bool.not_eq_true', decide_eq_false_iff_not]
  show _ ↔ q ∈ SortedSet.ofList ((A.subsets.filter _).map (numbered A.subsets c))
  simp only [SortedSet.mem_ofList, List.mem_map, List.mem_filter, accepts]
  constructor
  · rintro ⟨_, ⟨mem, accepting⟩, rfl⟩
    obtain ⟨S, hS, rfl⟩ := List.mem_map.1 mem
    exact ⟨S, ⟨(mem_inhabited.1 hS).1, accepting⟩, rfl⟩
  · rintro ⟨S, ⟨hS, r, hr, hacc⟩, rfl⟩
    have listed := mem_inhabited.2 ⟨hS, SortedSet.ne_empty_of_mem hr⟩
    exact ⟨_, ⟨List.mem_map_of_mem listed, r, hr, hacc⟩, rfl⟩

/-- The automaton that is read off in the end is the one on the sets of states. -/
theorem exists_automaton?_eq (hA : A.WellFormed) (c : State) :
    ∃ B, (atStage A c A.subsets []).automaton? A = some B ∧
      Agrees (A.onSubsets A.subsets c) B := by
  have shape : atStage A c A.subsets [] =
      snapshot A c A.subsets [] ((inhabited A.subsets).flatMap (row A c)) := by
    rw [atStage, List.append_nil]
  have first : A.initial ∈ inhabited A.subsets :=
    mem_inhabited.2 ⟨statesAfter_mem_subsets hA (over_nil A), initial_ne_empty hA⟩
  rw [shape, automaton?, number?_snapshot, if_pos first, numbered_initial hA, Option.map_some]
  refine ⟨_, rfl, ?_⟩
  exact
    { alphabet := rfl
      states := by
        apply SortedSet.ext
        intro q
        exact mem_states_snapshot.trans mem_states_subsetAutomaton.symm
      ends := by
        intro q l
        unfold ends
        rw [← get?_moves hA]
        rfl
      start := rfl
      accepting := by
        apply SortedSet.ext
        intro q
        exact SortedSet.mem_ofList.trans mem_accepting_snapshot
      kind := rfl
      names := get?_names }

end Worklist

/-- Which parts fit together does not depend on the order of the tables. -/
theorem Agrees.fits {B : Automaton} (h : Agrees A B) (fits : A.Fits) : B.Fits where
  start_mem := by
    rw [h.start, h.states]
    exact fits.start_mem
  accepting_subset := by
    rw [h.accepting, h.states]
    exact fits.accepting_subset
  step := by
    intro q l r hr
    rw [h.ends] at hr
    rw [h.states, h.alphabet]
    exact fits.step q l r hr
  deterministic := by
    intro kind
    rw [h.kind] at kind
    obtain ⟨silent, single⟩ := fits.deterministic kind
    constructor
    · intro q hq
      rw [h.states] at hq
      rw [h.ends]
      exact silent q hq
    · intro q hq a ha
      rw [h.states] at hq
      rw [h.alphabet] at ha
      rw [h.ends]
      exact single q hq a ha

theorem Agrees.compact {B : Automaton} (h : Agrees A B) : Agrees A.compact B.compact where
  alphabet := h.alphabet
  states := h.states
  ends := by
    intro q l
    rw [ends_compact, ends_compact, h.ends]
  start := h.start
  accepting := h.accepting
  kind := h.kind
  names := h.names

/-- **The worklist.**  Determinizing a well-formed automaton with `n` states from any counter gives
at most `2 ^ n` states, which are the consecutive integers from the counter on, where the counter
then stands; the first of them is the start.  At every moment of the search with a worklist the sets
that have had their turn and those that wait are different sets of states, none of them empty and
fewer than `2 ^ n`; they are those that have been numbered, and with the empty set, whenever it is
met, their numbers are the integers from the counter on.  As long as a set waits there is a turn,
and some turns leave no set waiting; the automaton that is read off then is the determinized one. -/
theorem worklist_gives_consecutive_states (hA : A.WellFormed) (c : State) :
    ∃ D, ∃ k : Nat, A.determinize.runFrom c = (.ok D, c + k) ∧
      D.stateCount = k ∧ k ≤ 2 ^ A.stateCount ∧ D.start = c ∧
      (∀ q, q ∈ D.states ↔ c ≤ q ∧ q < c + k) ∧
      (∀ taken w, Worklist.Turns A (.start A c) taken w →
        (taken ++ w.queue).Nodup ∧ (taken ++ w.queue).length < 2 ^ A.stateCount ∧
        (∀ S ∈ taken ++ w.queue, S ≠ ∅ ∧ S ⊆ A.states) ∧
        w.numbers.map Prod.fst = taken ++ w.queue ∧
        (∀ q, q ∈ w.states ↔ c ≤ q ∧ q < w.counter) ∧
        (w.queue ≠ [] → ∃ S v, Worklist.turn? A w = some (S, v)) ∧
        (w.queue = [] → ∃ B E, w.automaton? A = some B ∧
          (assembled B).runFrom w.counter = (.ok E, c + k) ∧ Agrees D E)) ∧
      ∃ taken w, Worklist.Turns A (.start A c) taken w ∧ w.queue = [] := by
  have states := toList_states_subsetAutomaton A c
  have all : ∀ q, q ∈ (A.subsetAutomaton c).states ↔ c ≤ q ∧ q < c + A.subsets.length := by
    intro q
    exact mem_states_subsetAutomaton.trans (exists_numbered_eq_iff (nodup_subsets A))
  have count : (A.subsetAutomaton c).stateCount = A.subsets.length := by
    show (A.subsetAutomaton c).states.toList.length = _
    rw [states, List.length_map]
  have bound : A.subsets.length ≤ 2 ^ A.stateCount := by
    obtain ⟨sets, size, every⟩ := exists_subsets A.states
    rw [show 2 ^ A.stateCount = sets.length from size.symm]
    exact (nodup_subsets A).length_le_of_subset fun S hS =>
      every S (subset_of_mem_subsets hA hS)
  refine ⟨A.subsetAutomaton c, A.subsets.length, runFrom_determinize hA c, count, bound, rfl, all,
    ?_, Worklist.exists_complete hA .none⟩
  intro taken w run
  obtain ⟨done, todo, stage, eq, rfl⟩ := run.exists_stage hA
  have queued : inhabited done ++ w.queue = inhabited (done ++ todo) := by
    rw [eq, inhabited_append]
    rfl
  refine ⟨?_, run.length_lt hA, ?_, ?_, ?_, run.exists_turn hA, ?_⟩
  · rw [queued]
    exact Worklist.nodup_inhabited stage.nodup
  · rw [queued]
    intro S hS
    obtain ⟨mem, some⟩ := mem_inhabited.1 hS
    exact ⟨some, stage.within S mem⟩
  · rw [eq]
    exact Worklist.numbers_atStage
  · rw [eq]
    exact fun q => Worklist.mem_states_atStage stage
  · intro ended
    rw [run.eq_atStage hA ended]
    obtain ⟨B, read, same⟩ := Worklist.exists_automaton?_eq hA c
    have next : (Worklist.atStage A c A.subsets []).counter = c + A.subsets.length := by
      show c + ((A.subsets ++ []).length : Int) = _
      rw [List.append_nil]
    refine ⟨B, B.compact, read, ?_, same.compact⟩
    rw [next]
    exact (same.fits (fits_onSubsets hA)).runFrom_assembled _

/-- A state from which `b` leads to another one, and `a` nowhere. -/
def brook : Automaton :=
  compact
    { alphabet := .ofList ['a', 'b']
      states := .ofList [5, 8]
      transitions := .ofList [(⟨5, some 'b'⟩, .singleton 8)]
      start := 5
      accepting := .singleton 8 }

/-- The empty set is numbered before the last set is. -/
theorem worklist_of_brook_gives_consecutive_states :
    brook.WellFormed ∧ ∃ D, brook.determinize.runFrom (-1) = (.ok D, 2) ∧
      D.names.get? 0 = some deadName ∧ D.start = -1 ∧ (∀ q, q ∈ D.states ↔ -1 ≤ q ∧ q < 2) ∧
      ∃ taken w, Worklist.Turns brook (.start brook (-1)) taken w ∧ w.queue = [] ∧
        taken.Nodup ∧ taken.length < 4 ∧ ∀ q, q ∈ w.states ↔ -1 ≤ q ∧ q < w.counter := by
  have wellFormed : brook.WellFormed := wellFormed_compact (by decide)
  obtain ⟨D, k, run, _, _, start, states, search, taken, w, turns, ended⟩ :=
    worklist_gives_consecutive_states wellFormed (-1)
  have named : ∃ E, brook.determinize.runFrom (-1) = (.ok E, 2) ∧
      E.names.get? 0 = some deadName := ⟨_, rfl, by decide⟩
  obtain ⟨E, given, dead⟩ := named
  rw [run] at given
  obtain ⟨same, counter⟩ := Prod.mk.inj given
  cases same
  obtain ⟨once, bound, _, _, consecutive, _⟩ := search taken w turns
  rw [ended, List.append_nil] at once bound
  rw [counter] at run states
  exact ⟨wellFormed, D, run, dead, start, states, taken, w, turns, ended, once, bound, consecutive⟩

end Automaton

end PatternAutomata
