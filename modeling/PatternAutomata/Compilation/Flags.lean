/-!
# Flags of a compilation

Which stages a compilation runs through, and whether it reports on them.

* `Flags.ofBits` — the flags of a number: bit 0 asks for a deterministic automaton, bit 1 for a
  minimal one, bit 2 for reports; higher bits mean nothing;
* `Flags.shouldDeterminize` — a minimal automaton is made from a deterministic one.
-/

namespace PatternAutomata

/-- What a compilation is asked for. -/
structure Flags where
  determinize : Bool := false
  minimize : Bool := false
  debug : Bool := false
  deriving DecidableEq, Repr

namespace Flags

/-- Whether the lowest bit of a number in two's complement is set. -/
def lowestBit (n : Int) : Bool := n % 2 = 1

/-- The flags of a number. -/
def ofBits (n : Int) : Flags := ⟨lowestBit n, lowestBit (n / 2), lowestBit (n / 4)⟩

/-- Whether a deterministic automaton is made. -/
def shouldDeterminize (f : Flags) : Bool := f.determinize || f.minimize

/-- Whether a minimal automaton is made. -/
def shouldMinimize (f : Flags) : Bool := f.minimize

end Flags

end PatternAutomata
