import RnsEngine.Channel.Basic
import RnsEngine.Tile.Basic
import RnsEngine.Window

/-!
# Entrywise arithmetic on banks

`PointwiseOp` names the three operations that act on each entry alone. `Pointwise.into` writes
the result of two banks over a third one, `Pointwise.assign` over the first operand. Tile `l`
is computed in the channel with index `offset + l`; tiles outside the window are left alone.
-/

namespace RnsEngine

/-- The operations that act entry by entry. -/
inductive PointwiseOp where
  | add
  | sub
  | mul
deriving DecidableEq, Repr

/-- The operation on two reduced words. -/
def PointwiseOp.apply : PointwiseOp → Channel → UInt64 → UInt64 → UInt64
  | .add, c, a, b => c.add a b
  | .sub, c, a, b => c.sub a b
  | .mul, c, a, b => c.mul a b

namespace Pointwise

variable {g : Geometry}

/-- The channel of an active tile. -/
def channelAt {channels : Array Channel} {capacity : Nat} (span : Span capacity channels.size)
    (l : Nat) (h : l < span.count) : Channel :=
  getElem channels (span.start + l) (span.index_lt h)

/-- Writes the results for two banks over the active tiles of a third. -/
def into (op : PointwiseOp) (left right target : Bank g) (channels : Array Channel)
    (window : Window) : Except Fault (Bank g) := do
  let span ← window.validate g.capacity channels.size
  return target.mapFinIdx fun l tile hl =>
    if h : l < span.count then Tile.zipWith (op.apply (channelAt span l h)) left[l] right[l]
    else tile

/-- Writes the results over the active tiles of the first operand. -/
def assign (op : PointwiseOp) (left right : Bank g) (channels : Array Channel)
    (window : Window) : Except Fault (Bank g) := do
  let span ← window.validate g.capacity channels.size
  return left.mapFinIdx fun l tile hl =>
    if h : l < span.count then Tile.zipWith (op.apply (channelAt span l h)) tile right[l]
    else tile

end Pointwise

end RnsEngine
