import Mathlib.Data.Fin.Basic
import RnsEngine.Proofs.Transform.Spectrum
import RnsEngine.Transform.FourStep

/-!
# The passes over a tile

Every pass of a tile transform is described by what it does to entries. A pass of the permutation
network takes the entry of a position to another one (`Staged.get_pass`); three of them transpose
(`Staged.get_transpose`). Row passes and column passes transform one lane after the other, and
no two lanes of a pass share a position (`Datapath.get_foldl_alongLane`); rotated rows put the
columns on diagonals, so that the passes between two rotations transform the columns.

Put together, an entry of either transform is a transform of a lane of transformed lanes, with the
factors of the table between them: `Datapath.get_evaluate` and `Datapath.get_interpolate`. The
buffers of the datapath do not occur in them.
-/

namespace RnsEngine

/-! ### Positions -/

instance (g : Geometry) : NeZero g.side := ⟨g.side_pos.ne'⟩

namespace Tile

variable {side : ℕ}

/-- Flat indices determine positions. -/
theorem index_inj {i j i' j' : Fin side} (h : index i j = index i' j') : (i, j) = (i', j') := by
  have hrow := congrArg row h
  have hcolumn := congrArg column h
  rw [row_index, row_index] at hrow
  rw [column_index, column_index] at hcolumn
  rw [hrow, hcolumn]

end Tile

/-! ### The permutation network -/

namespace Staged

variable {side : ℕ}

/-- A pass that sends no two positions to the same one moves every entry to its destination. -/
theorem get_pass {dest : Fin side → Fin side → Fin side × Fin side}
    (hdest : ∀ i j i' j', dest i j = dest i' j' → (i, j) = (i', j')) (s : Staged side)
    (i j : Fin side) :
    (s.pass dest).tile.get (dest i j).1 (dest i j).2 = s.tile.get i j := by
  have hinj : ∀ k k' : Fin (side * side),
      Tile.index (dest (Tile.row k) (Tile.column k)).1 (dest (Tile.row k) (Tile.column k)).2 =
        Tile.index (dest (Tile.row k') (Tile.column k')).1
          (dest (Tile.row k') (Tile.column k')).2 → k = k' := by
    intro k k' h
    have hpos := hdest _ _ _ _ (Tile.index_inj h)
    rw [← Tile.index_row_column k, ← Tile.index_row_column k', (Prod.mk.inj hpos).1,
      (Prod.mk.inj hpos).2]
  have hget := getElem_scatter hinj s.tile.words.get s.tile.words (Tile.index i j)
  simp only [Tile.row_index, Tile.column_index] at hget
  exact hget

variable [NeZero side]

/-- No two entries of a row are rotated to the same place. -/
theorem rotated_inj (shift : Shift) (i j i' j' : Fin side)
    (h : (i, rotated shift i j) = (i', rotated shift i' j')) : (i, j) = (i', j') := by
  obtain ⟨rfl, hj⟩ := Prod.mk.inj h
  cases shift with
  | right =>
    have hsum : j + i = j' + i := hj
    rw [add_right_cancel hsum]
  | left =>
    have hdifference : j - i = j' - i := hj
    rw [sub_left_inj.1 hdifference]

/-- Rotating to the right moves an entry of row `i` by `i` columns. -/
theorem get_interleave_right (s : Staged side) (i j : Fin side) :
    (s.interleave .right).tile.get i (j + i) = s.tile.get i j :=
  get_pass (rotated_inj .right) s i j

/-- Rotating to the left moves it back. -/
theorem get_interleave_left (s : Staged side) (i j : Fin side) :
    (s.interleave .left).tile.get i j = s.tile.get i (j + i) := by
  have hget := get_pass (rotated_inj .left) s i (j + i)
  have hback : rotated .left i (j + i) = j := add_sub_cancel_right j i
  rwa [hback] at hget

/-- Reflection exchanges the rows of a column in pairs with the sum of the column. -/
theorem get_reflect (s : Staged side) (r c : Fin side) :
    s.reflect.tile.get (c - r) c = s.tile.get r c := by
  refine get_pass (fun r c r' c' h => ?_) s r c
  obtain ⟨hr, rfl⟩ := Prod.mk.inj h
  rw [sub_right_inj.1 hr]

/-- The three passes transpose the tile. -/
theorem get_transpose (s : Staged side) (i j : Fin side) :
    s.transpose.tile.get i j = s.tile.get j i := by
  rw [transpose, get_interleave_left]
  -- the entry was rotated to the column with the sum of its indices, where reflection swaps them
  have hreflect := get_reflect (s.interleave .right) j (j + i)
  rw [add_sub_cancel_left] at hreflect
  rw [hreflect, add_comm j i, get_interleave_right]

end Staged

/-! ### Passes along lanes -/

namespace Datapath

open Lanes

variable {g : Geometry} {c : Channel} {t : Table} {h : t.Covers g}

/-- The words of a tile at given positions, as a lane. -/
def line (t : Tile g.side) (place : Fin g.side → Fin g.side × Fin g.side) :
    Vector UInt64 g.side :=
  Vector.ofFn fun i => t.get (place i).1 (place i).2

/-- A lane of a tile is replaced by its transform. -/
theorem get_alongLane {place : Fin g.side → Fin g.side × Fin g.side}
    (hplace : ∀ i i', place i = place i' → i = i') (d : Datapath g) (i : Fin g.side) :
    (d.alongLane c t h place).tile.get (place i).1 (place i).2 =
      (spectrum c t h (line d.tile place)).get i := by
  have htarget : ∀ i i', Tile.index (place i).1 (place i).2 = Tile.index (place i').1 (place i').2 →
      i = i' := fun i i' heq => hplace i i' (Tile.index_inj heq)
  have hget := getElem_scatter htarget (fun i => (spectrum c t h (line d.tile place)).get i)
    d.tile.words i
  rw [← hget, alongLane, lane_cyclicDft, scatter_id]
  rfl

/-- Entries at other positions are left alone. -/
theorem get_alongLane_of_forall_ne {place : Fin g.side → Fin g.side × Fin g.side}
    {i j : Fin g.side} (hne : ∀ k, place k ≠ (i, j)) (d : Datapath g) :
    (d.alongLane c t h place).tile.get i j = d.tile.get i j :=
  getElem_scatter_of_forall_ne _ d.tile.words fun k heq => hne k (Tile.index_inj heq)

/-- A pass over lanes without common positions replaces each by the transform of what it was
before the pass. -/
theorem get_foldl_alongLane {place : Fin g.side → Fin g.side → Fin g.side × Fin g.side}
    (hplace : ∀ l i l' i', place l i = place l' i' → (l, i) = (l', i')) (d : Datapath g)
    (l i : Fin g.side) :
    (Fin.foldl g.side (fun d l => d.alongLane c t h (place l)) d).tile.get (place l i).1
      (place l i).2 = (spectrum c t h (line d.tile (place l))).get i := by
  -- the lanes that have had their turn are transformed, the others hold their old words
  have hall := foldl_carries (fun m (e : Datapath g) => ∀ l i : Fin g.side,
      e.tile.get (place l i).1 (place l i).2 =
        if l.val < m then (spectrum c t h (line d.tile (place l))).get i
        else d.tile.get (place l i).1 (place l i).2)
    (fun d l => d.alongLane c t h (place l)) (s := d) (fun l i => by simp) (fun k e he l i => ?_)
  · rw [hall l i, if_pos l.isLt]
  · by_cases hl : l = k
    · subst hl
      have hline : line e.tile (place l) = line d.tile (place l) := by
        rw [line, line]
        congr 1
        funext i
        rw [he l i, if_neg (Nat.lt_irrefl _)]
      have hinj : ∀ i i', place l i = place l i' → i = i' := fun i i' heq =>
        (Prod.mk.inj (hplace l i l i' heq)).2
      rw [get_alongLane hinj, if_pos (Nat.lt_succ_self _), hline]
    · have hval : l.val ≠ k.val := fun heq => hl (Fin.ext heq)
      have hlt : l.val < k.val + 1 ↔ l.val < k.val := by omega
      have hne : ∀ i', place k i' ≠ place l i := fun i' heq =>
        hl (Prod.mk.inj (hplace k i' l i heq)).1.symm
      rw [get_alongLane_of_forall_ne hne, he l i]
      simp only [hlt]

/-- Row passes transform every row. -/
theorem get_rowPasses (d : Datapath g) (i j : Fin g.side) :
    (d.rowPasses c t h).tile.get i j =
      (spectrum c t h (Vector.ofFn fun n => d.tile.get i n)).get j := by
  have hrow : ∀ l k l' k' : Fin g.side, (l, k) = (l', k') → (l, k) = (l', k') :=
    fun _ _ _ _ heq => heq
  exact get_foldl_alongLane hrow d i j

/-- Column passes between two rotations transform every column. -/
theorem get_columnPasses (d : Datapath g) (i j : Fin g.side) :
    (((d.permute (Staged.interleave .right)).columnPasses c t h).permute
      (Staged.interleave .left)).tile.get i j =
        (spectrum c t h (Vector.ofFn fun n => d.tile.get n j)).get i := by
  have hdiag : ∀ l k l' k' : Fin g.side, diagonal l k = diagonal l' k' → (l, k) = (l', k') := by
    intro l k l' k' heq
    obtain ⟨rfl, hsum⟩ := Prod.mk.inj heq
    rw [add_left_cancel hsum]
  -- a diagonal of the rotated tile is a column of the tile
  have hget := get_foldl_alongLane hdiag (d.permute (Staged.interleave .right)) j i (c := c)
    (t := t) (h := h)
  have hline : line (d.permute (Staged.interleave .right)).tile (diagonal j) =
      Vector.ofFn fun n => d.tile.get n j := by
    rw [line]
    congr 1
    funext n
    rw [diagonal, add_comm n j]
    exact Staged.get_interleave_right ⟨d.tile, d.staging⟩ n j
  rw [hline] at hget
  rw [← hget, diagonal, add_comm i j]
  exact Staged.get_interleave_left _ i j

/-! ### The two transforms -/

/-- An entry of the forward transform. -/
theorem get_evaluate (d : Datapath g) (i j : Fin g.side) :
    (d.evaluate c t h).tile.get i j =
      (spectrum c t h (Vector.ofFn fun n₂ =>
        c.mul ((spectrum c t h (Vector.ofFn fun n₁ =>
          c.mul (d.tile.get n₁ n₂) (t.read h (.twist n₁)))).get j)
            (t.read h (.pass j n₂)))).get i := by
  refine (Staged.get_transpose _ i j).trans ((get_rowPasses _ j i).trans ?_)
  simp only [interPass, Tile.get_mapEntries, get_columnPasses, twist]

/-- An entry of the inverse transform. -/
theorem get_interpolate (d : Datapath g) (i j : Fin g.side) :
    (d.interpolate c t h).tile.get i j =
      c.mul ((spectrum c t h (Vector.ofFn fun k₁ =>
        c.mul ((spectrum c t h (Vector.ofFn fun k₂ => d.tile.get k₂ k₁)).get j)
          (t.read h (.pass k₁ j)))).get i) (t.read h (.twist i)) := by
  simp only [interpolate, twist, Tile.get_mapEntries, get_columnPasses, interPass, get_rowPasses]
  simp only [permute, Staged.get_transpose]

end Datapath

end RnsEngine
