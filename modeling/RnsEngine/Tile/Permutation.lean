import RnsEngine.Tile.Basic
import RnsEngine.Tile.Scatter

/-!
# The permutation network

The network moves the entries of a tile in whole passes: it copies the tile into a staging
buffer of the same size and writes each entry from there to its new position, so that no pass
reads what it has already written. There are two kinds of pass. `interleave` rotates row `i` by
`i` places, and `reflect` sends row `r` of column `c` to row `c - r`. Positions are taken
modulo the side. Three passes in a row transpose the tile.
-/

namespace RnsEngine

/-- The direction of a rotation. -/
inductive Shift where
  | right
  | left
deriving DecidableEq, Repr

/-- A tile together with the staging buffer of the network. -/
structure Staged (side : Nat) where
  tile : Tile side
  staging : Tile side
deriving DecidableEq

namespace Staged

variable {side : Nat}

/-- The column that an entry of row `i` and column `j` is rotated to. -/
def rotated (shift : Shift) (i j : Fin side) : Fin side :=
  match shift with
  | .right => j + i
  | .left => j - i

/-- One pass: the tile is staged, and every staged entry is written to its new position. -/
def pass (dest : Fin side → Fin side → Fin side × Fin side) (s : Staged side) : Staged side :=
  let staging := s.tile
  let target := fun k =>
    let (i, j) := dest (Tile.row k) (Tile.column k)
    Tile.index i j
  { tile := ⟨scatter target (fun k => staging.words[k]) s.tile.words⟩, staging }

/-- Rotates row `i` by `i` places. -/
def interleave (shift : Shift) : Staged side → Staged side :=
  pass fun i j => (i, rotated shift i j)

/-- Sends row `r` of column `c` to row `c - r`. -/
def reflect : Staged side → Staged side :=
  pass fun r c => (c - r, c)

/-- Transposes the tile in three passes. -/
def transpose (s : Staged side) : Staged side :=
  ((s.interleave .right).reflect).interleave .left

end Staged

end RnsEngine
