import PatternAutomata.Automaton.Subset

/-!
# Elementary automata and their composition

Automata for single symbols, for the empty text and for nothing, and the automata for union,
concatenation and iteration.  The operands stay as they are; a result may share states with them.
If the operands of a union or a concatenation share states, the right one is relabelled first.  A
result is made deterministic if the left operand is.

* `symbol`, `epsilon`, `empty` — the elementary automata;
* `rename` — an automaton with its states renamed, and `relabel` — with fresh states in ascending
  order;
* `unionFrom`, `followedBy`, `iteratedFrom` — the compositions as data;
* `union`, `concatenate`, `star` — the compositions with fresh states.
-/

namespace PatternAutomata

namespace Automaton

/-! ### Elementary automata -/

/-- The automaton that accepts the one symbol `c`. -/
def symbol (c : Symbol) : Fresh Automaton := do
  let start ← fresh
  let stop ← fresh
  assembled
    { alphabet := .singleton c
      states := .ofList [start, stop]
      transitions := .ofList [(⟨start, some c⟩, .singleton stop)]
      start := start
      accepting := .singleton stop }

/-- The automaton that accepts only the empty text. -/
def epsilon : Fresh Automaton := do
  let state ← fresh
  assembled
    { alphabet := ∅
      states := .singleton state
      transitions := ∅
      start := state
      accepting := .singleton state }

/-- The automaton that accepts nothing. -/
def empty : Fresh Automaton := do
  let state ← fresh
  assembled
    { alphabet := ∅
      states := .singleton state
      transitions := ∅
      start := state
      accepting := ∅ }

/-! ### Renaming states -/

/-- The automaton with every state renamed by `f`. -/
def rename (f : State → State) (A : Automaton) : Automaton :=
  { alphabet := A.alphabet
    states := A.states.map f
    transitions := .ofList <| A.transitions.entries.map fun e =>
      (⟨f e.1.source, e.1.label⟩, e.2.map f)
    start := f A.start
    accepting := A.accepting.map f
    kind := A.kind
    names := .ofList (A.names.entries.map fun e => (f e.1, e.2)) }

/-- The number of a state when the states are numbered from `base` in ascending order. -/
def rankFrom (A : Automaton) (base : State) (q : State) : State := base + A.states.toList.idxOf q

/-- The automaton with fresh states in the same order.  Every state that has a name must be one of
the automaton; the fresh states are handed out even if that fails. -/
def relabel (A : Automaton) : Fresh Automaton := do
  let base ← reserve A.states.size
  match A.names.keys.find? fun q => decide (q ∉ A.states) with
  | some q => settled (.error (.strayName q))
  | none => assembled (A.rename (A.rankFrom base))

/-- The right operand of a composition, relabelled if it shares states with the left one. -/
def apartFrom (B A : Automaton) : Fresh Automaton :=
  if A.states.Disjoint B.states then pure B else B.relabel

/-- The result of a composition with the left operand `A`: deterministic if `A` is. -/
def conform (A result : Automaton) : Fresh Automaton := do
  let result ← assembled result
  if A.isDeterministic then result.determinize else pure result

/-! ### Compositions -/

/-- The entries that lead by ε from each accepting state also to `target`. -/
def returning (A : Automaton) (target : State) : List (Origin × SortedSet State) :=
  A.accepting.toList.map fun q => (⟨q, none⟩, (A.ends q none).insert target)

/-- A start state with ε transitions to the start states of `A` and `B`. -/
def unionFrom (start : State) (A B : Automaton) : Automaton :=
  { alphabet := A.alphabet.union B.alphabet
    states := (A.states.union B.states).insert start
    transitions := (A.transitions.merge B.transitions).insert ⟨start, none⟩
      (.ofList [A.start, B.start])
    start := start
    accepting := A.accepting.union B.accepting }

/-- An ε transition from each accepting state of `A` to the start state of `B`. -/
def followedBy (A B : Automaton) : Automaton :=
  { alphabet := A.alphabet.union B.alphabet
    states := A.states.union B.states
    transitions := (A.transitions.merge B.transitions).insertAll (A.returning B.start)
    start := A.start
    accepting := B.accepting }

/-- A start state that is accepting and has an ε transition to the start state of `A`, and an ε
transition from each accepting state of `A` back to that.  Nothing leads to the new start state, so
making it accepting cannot complete a text that is only part of a pass. -/
def iteratedFrom (start : State) (A : Automaton) : Automaton :=
  { alphabet := A.alphabet
    states := A.states.insert start
    transitions := (A.transitions.insert ⟨start, none⟩ (.singleton A.start)).insertAll
      (A.returning A.start)
    start := start
    accepting := A.accepting.insert start }

/-- An automaton that accepts what `A` accepts or `B` accepts. -/
def union (A B : Automaton) : Fresh Automaton := do
  let B ← B.apartFrom A
  let start ← fresh
  A.conform (unionFrom start A B)

/-- An automaton that accepts a text of `A` followed by a text of `B`. -/
def concatenate (A B : Automaton) : Fresh Automaton := do
  let B ← B.apartFrom A
  A.conform (followedBy A B)

/-- An automaton that accepts any number of texts of `A` one after the other. -/
def star (A : Automaton) : Fresh Automaton := do
  let start ← fresh
  A.conform (iteratedFrom start A)

end Automaton

end PatternAutomata
