import PatternAutomata.Automaton.Run
import PatternAutomata.Automaton.WellFormed
import PatternAutomata.Distinct
import PatternAutomata.Tabulated

/-!
# Partition refinement

The states of a deterministic automaton, grouped by what they accept.  The grouping starts with the
accepting states and the others.  In each round the first block that some symbol splits gives way to
its parts; the symbols are tried in ascending order, and the parts are ordered by their smallest
members.

A symbol can only be tried on a block of several states if it leads to exactly one state from each
of them.  That is so in a deterministic automaton; in another one the refinement can stop there.

* `Automaton.signature` — the place of the block that a symbol leads to;
* `split` — a block by the values of a function;
* `Automaton.refine` — the blocks when no symbol splits any of them;
* `Automaton.tryRefine` — the same, or the choice at which the refinement stops;
* `signature_eq` — the columns, worked out once, say where the symbols lead.
-/

namespace PatternAutomata

/-- States that have not been told apart. -/
abbrev Block := SortedSet State

/-- The values of a function on the members of a block, each once, in the order of the smallest
members that have them. -/
def valuesOn (f : State → Nat) (block : Block) : List Nat := distinct (block.toList.map f)

/-- The members of a block with equal values of `f` together, in the order of their smallest
members. -/
def split (f : State → Nat) (block : Block) : List Block :=
  (valuesOn f block).map fun n => block.filter fun q => f q = n

/-- Where one symbol leads from each state. -/
structure Column where
  symbol : Symbol
  targets : List (State × Option State)

namespace Automaton

/-- Where each symbol leads from each state, symbols in ascending order. -/
def columns (A : Automaton) : List Column :=
  A.alphabet.toList.map fun c => ⟨c, tabulated A.states.toList fun q => A.successor? q c⟩

/-- The only state that the symbol of a column leads to from `q`. -/
def targetIn? (A : Automaton) (column : Column) (q : State) : Option State :=
  recalled column.targets (fun q => A.successor? q column.symbol) q

/-- The place of the block that the symbol of a column leads to from `q`, or the number of blocks if
there is a choice. -/
def signature (A : Automaton) (blocks : List Block) (column : Column) (q : State) : Nat :=
  match A.targetIn? column q with
  | some e => blocks.findIdx fun b => decide (e ∈ b)
  | none => blocks.length

/-- The parts of a block by the first symbol that splits it. -/
def parts? (A : Automaton) (columns : List Column) (blocks : List Block) (block : Block) :
    Option (List Block) :=
  columns.findSome? fun column =>
    if 1 < (valuesOn (A.signature blocks column) block).length then
      some (split (A.signature blocks column) block)
    else none

/-- The given blocks with the first one that can be split replaced by its parts. -/
def splitFirst? (A : Automaton) (columns : List Column) (blocks : List Block) :
    List Block → Option (List Block)
  | [] => none
  | b :: rest =>
    match A.parts? columns blocks b with
    | some parts => some (parts ++ rest)
    | none => (A.splitFirst? columns blocks rest).map (b :: ·)

/-- At most `rounds` rounds of splitting. -/
def refineFrom (A : Automaton) (columns : List Column) : (rounds : Nat) → List Block → List Block
  | 0, blocks => blocks
  | rounds + 1, blocks =>
    match A.splitFirst? columns blocks blocks with
    | some finer => A.refineFrom columns rounds finer
    | none => blocks

/-- The accepting states and the others, as far as there are any. -/
def halves (A : Automaton) : List Block :=
  [A.accepting, A.states.sdiff A.accepting].filter fun b => !b.isEmpty

/-- The blocks of states that no text tells apart.  Every round makes one more block at least, and
there are at most as many blocks as states. -/
def refine (A : Automaton) : List Block := A.refineFrom A.columns A.states.size A.halves

/-! ### Automata with choices -/

/-- The first member of a block from which the symbol of a column leads to no state or to several,
as the rule that is broken there. -/
def choice? (A : Automaton) (column : Column) (block : Block) : Option Violation :=
  (block.toList.find? fun q => (A.targetIn? column q).isNone).map fun q =>
    .ambiguousStep q column.symbol

/-- The parts of a block by the first symbol that splits it.  No symbol is tried on a single state,
and one that meets a choice in the block stops the refinement. -/
def tryParts (A : Automaton) (columns : List Column) (blocks : List Block) (block : Block) :
    Except Violation (Option (List Block)) :=
  if block.size < 2 then .ok none
  else columns.findSomeM? fun column =>
    match A.choice? column block with
    | some v => .error v
    | none =>
      .ok <| if 1 < (valuesOn (A.signature blocks column) block).length then
        some (split (A.signature blocks column) block)
      else none

/-- The given blocks with the first one that can be split replaced by its parts, unless a symbol
meets a choice before. -/
def trySplitFirst (A : Automaton) (columns : List Column) (blocks : List Block) :
    List Block → Except Violation (Option (List Block))
  | [] => .ok none
  | b :: rest => do
    match ← A.tryParts columns blocks b with
    | some parts => return some (parts ++ rest)
    | none => return (← A.trySplitFirst columns blocks rest).map (b :: ·)

/-- At most `rounds` rounds of splitting, as long as no symbol meets a choice. -/
def tryRefineFrom (A : Automaton) (columns : List Column) :
    (rounds : Nat) → List Block → Except Violation (List Block)
  | 0, blocks => .ok blocks
  | rounds + 1, blocks => do
    match ← A.trySplitFirst columns blocks blocks with
    | some finer => A.tryRefineFrom columns rounds finer
    | none => return blocks

/-- The blocks of states that no text tells apart, or the first choice that a symbol meets. -/
def tryRefine (A : Automaton) : Except Violation (List Block) :=
  A.tryRefineFrom A.columns A.states.size A.halves

/-! ### What the columns say -/

theorem targetIn?_eq {A : Automaton} {column : Column} (h : column ∈ A.columns) (q : State) :
    A.targetIn? column q = A.successor? q column.symbol := by
  obtain ⟨c, -, rfl⟩ := List.mem_map.1 h
  exact recalled_tabulated _ _ _

theorem signature_eq {A : Automaton} {blocks : List Block} {column : Column}
    (h : column ∈ A.columns) (q : State) :
    A.signature blocks column q =
      match A.successor? q column.symbol with
      | some e => blocks.findIdx fun b => decide (e ∈ b)
      | none => blocks.length := by
  rw [signature, targetIn?_eq h]

end Automaton

end PatternAutomata
