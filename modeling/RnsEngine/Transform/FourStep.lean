import RnsEngine.Tile.Permutation
import RnsEngine.Transform.Lane

/-!
# The transform of one tile

The forward transform of a tile evaluates the polynomial with its coefficients at the odd
powers of a root of unity of order `2 * ringDim`; the inverse transform interpolates. With the
coefficients in a square, either takes seven passes over the tile:

* the **twist** multiplies each row by a power of the root,
* rotating the rows brings the columns onto diagonals, where **column passes** transform each,
  and rotating back restores them,
* the factors **between the passes** multiply each entry by a power of the root,
* **row passes** transform each row,
* a **transposition** leaves the result in natural order.

The inverse takes the same passes from last to first, with the factors of its own table.
-/

namespace RnsEngine

/-- The buffers of the datapath: one tile for staging and two lanes. -/
structure Scratch (g : Geometry) extends Lanes g where
  staging : Tile g.side
deriving DecidableEq

/-- Buffers that hold zeros. -/
def Scratch.blank (g : Geometry) : Scratch g :=
  { lane := Vector.replicate g.side 0, permuted := Vector.replicate g.side 0,
    staging := Tile.zero }

/-- A tile in work, with the buffers that it is worked on with. -/
structure Datapath (g : Geometry) extends Scratch g where
  tile : Tile g.side
deriving DecidableEq

namespace Datapath

variable {g : Geometry}

/-- Sends the tile through the permutation network. -/
def permute (f : Staged g.side → Staged g.side) (d : Datapath g) : Datapath g :=
  let s := f { tile := d.tile, staging := d.staging }
  { d with tile := s.tile, staging := s.staging }

/-- Multiplies every row by its twist factor. -/
def twist (c : Channel) (t : Table) (h : t.Covers g) (d : Datapath g) : Datapath g :=
  { d with tile := d.tile.mapEntries fun row _ x => c.mul x (t.read h (.twist row)) }

/-- Multiplies every entry by its factor between the passes. -/
def interPass (c : Channel) (t : Table) (h : t.Covers g) (d : Datapath g) : Datapath g :=
  { d with tile := d.tile.mapEntries fun row column x => c.mul x (t.read h (.pass row column)) }

/-- Transforms the words at given positions of the tile, one for each place of the lane. -/
def alongLane (c : Channel) (t : Table) (h : t.Covers g)
    (place : Fin g.side → Fin g.side × Fin g.side) (d : Datapath g) : Datapath g :=
  let lane := scatter id (fun i => d.tile.get (place i).1 (place i).2) d.lane
  let lanes := Lanes.cyclicDft c t h { lane, permuted := d.permuted }
  let target := fun i => Tile.index (place i).1 (place i).2
  { d with
    toLanes := lanes
    tile := ⟨scatter target lanes.lane.get d.tile.words⟩ }

/-- The positions of a column in a tile whose rows are rotated to the right. -/
def diagonal (column i : Fin g.side) : Fin g.side × Fin g.side := (i, i + column)

/-- Transforms every column of a tile whose rows are rotated to the right. -/
def columnPasses (c : Channel) (t : Table) (h : t.Covers g) (d : Datapath g) : Datapath g :=
  Fin.foldl g.side (fun d column => d.alongLane c t h (diagonal column)) d

/-- Transforms every row. -/
def rowPasses (c : Channel) (t : Table) (h : t.Covers g) (d : Datapath g) : Datapath g :=
  Fin.foldl g.side (fun d row => d.alongLane c t h (Prod.mk row)) d

/-- The forward transform. -/
def evaluate (c : Channel) (t : Table) (h : t.Covers g) (d : Datapath g) : Datapath g :=
  let d := d.twist c t h
  let d := d.permute (Staged.interleave .right)
  let d := d.columnPasses c t h
  let d := d.permute (Staged.interleave .left)
  let d := d.interPass c t h
  let d := d.rowPasses c t h
  d.permute Staged.transpose

/-- The inverse transform. -/
def interpolate (c : Channel) (t : Table) (h : t.Covers g) (d : Datapath g) : Datapath g :=
  let d := d.permute Staged.transpose
  let d := d.rowPasses c t h
  let d := d.interPass c t h
  let d := d.permute (Staged.interleave .right)
  let d := d.columnPasses c t h
  let d := d.permute (Staged.interleave .left)
  d.twist c t h

/-- The transform in the direction of the table. -/
def transform (c : Channel) (t : Table) (h : t.Covers g) (d : Datapath g) : Datapath g :=
  match t.direction with
  | .forward => d.evaluate c t h
  | .inverse => d.interpolate c t h

/-- The transform with any table; one that does not reach over the layout has no factors for
some of the passes. -/
def transform? (c : Channel) (t : Table) (d : Datapath g) : Option (Datapath g) :=
  if h : t.Covers g then some (d.transform c t h) else none

end Datapath

/-- Where the final transposition takes the word with a flat index. -/
def outputIndex (g : Geometry) (k : Nat) : Nat := k % g.side * g.side + k / g.side

end RnsEngine
