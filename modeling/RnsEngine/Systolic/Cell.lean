/-!
# Cells

A cell of the grid keeps a weight and accumulates products with it. Its outputs are registered:
what it emits in a cycle is what it latched in the cycle before. The accumulator is wide, and
the modulus is only applied where a column ends.
-/

namespace RnsEngine

/-- A multiply-accumulate cell: its weight, the modulus of its column, and its registers. -/
structure Cell where
  weight : UInt64
  modulus : UInt64
  x : UInt64
  sum : Nat
deriving DecidableEq, Repr

namespace Cell

/-- A cell with cleared registers. -/
def ofWeight (weight modulus : UInt64) : Cell := { weight, modulus, x := 0, sum := 0 }

/-- The registered outputs. -/
def emit (c : Cell) : UInt64 × Nat := (c.x, c.sum)

/-- Takes in a word and a partial sum, to which the weighted word is added. -/
def latch (c : Cell) (x : UInt64) (sum : Nat) : Cell :=
  { c with x, sum := sum + x.toNat * c.weight.toNat }

/-- One cycle: the registers are emitted before the inputs are latched. -/
def step (c : Cell) (x : UInt64) (sum : Nat) : (UInt64 × Nat) × Cell :=
  (c.emit, c.latch x sum)

end Cell

end RnsEngine
