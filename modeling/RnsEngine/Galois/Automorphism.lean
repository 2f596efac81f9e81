import RnsEngine.Channel.Basic
import RnsEngine.Galois.Steps
import RnsEngine.Tile.Basic
import RnsEngine.Tile.Scatter

/-!
# Automorphisms on tiles

Substituting `X ^ k` sends the coefficient of `X ^ n` to exponent `n * k`. Exponents count
modulo twice the ring dimension, and `X ^ ringDim` is `-1`: the coefficient lands at
`n * k` modulo the ring dimension, negated when the exponent falls into the second half.
-/

namespace RnsEngine

namespace Galois

variable {g : Geometry}

/-- The exponent that a coefficient is sent to, modulo the order. -/
def exponent (g : Geometry) (k n : Nat) : Nat := n * k % g.order

/-- Where a coefficient lands. -/
def destination (g : Geometry) (k : Nat) (n : Fin g.ringDim) : Fin g.ringDim :=
  ⟨exponent g k n.val % g.ringDim, Nat.mod_lt _ g.ringDim_pos⟩

/-- The coefficient with the sign that it lands with. -/
def signed (g : Geometry) (c : Channel) (k n : Nat) (x : UInt64) : UInt64 :=
  if g.ringDim ≤ exponent g k n then c.neg x else x

/-- Writes every coefficient of a tile where the substitution sends it. -/
def substitute (c : Channel) (k : Nat) (input output : Tile g.side) : Tile g.side :=
  let value := fun n : Fin g.ringDim => signed g c k n.val (getElem input.words n.val n.isLt)
  ⟨scatter (destination g k) value output.words⟩

/-- Applies a step of a table to a tile in the channel with the given index, writing over
another tile. The table must have the order of the geometry. -/
def automorphism (input : Tile g.side) (steps : GaloisSteps) (step : Nat)
    (output : Tile g.side) (channels : Array Channel) (index : Nat) :
    Except Fault (Tile g.side) := do
  if steps.order ≠ g.order then
    throw (.lengthMismatch .galoisOrder g.order steps.order)
  let k ← steps.element step
  match channels[index]? with
  | some c => return substitute c k input output
  | none =>
    throw (.windowOutOfRange index (min (index + 1) (2 ^ 64 - 1)) channels.size)

end Galois

end RnsEngine
