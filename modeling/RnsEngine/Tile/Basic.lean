import RnsEngine.Geometry

/-!
# Tiles and banks

A tile holds the coefficients of one channel as a square of words, row after row: the entry in
row `i` and column `j` has the flat index `i * side + j`. A bank is one tile for each channel
that the engine has room for.

Positions are pairs of `Fin side`; `Tile.index` and the pair `Tile.row`, `Tile.column` convert
between them and flat indices. The partial accessors with a question mark take any numbers.
-/

namespace RnsEngine

/-- A square of words, row after row. -/
structure Tile (side : Nat) where
  words : Vector UInt64 (side * side)
deriving DecidableEq

namespace Tile

variable {side : Nat}

/-! ### Positions -/

/-- A position lies inside the square. -/
theorem index_lt (i j : Fin side) : i.val * side + j.val < side * side := by
  have h : (i.val + 1) * side ≤ side * side := Nat.mul_le_mul_right _ i.isLt
  rw [Nat.add_mul, Nat.one_mul] at h
  have := j.isLt
  omega

/-- The flat index of a position. -/
def index (i j : Fin side) : Fin (side * side) := ⟨i.val * side + j.val, index_lt i j⟩

/-- The row of a flat index. -/
def row (k : Fin (side * side)) : Fin side := ⟨k.val / side, Nat.div_lt_of_lt_mul k.isLt⟩

/-- The column of a flat index. -/
def column (k : Fin (side * side)) : Fin side :=
  ⟨k.val % side, Nat.mod_lt _ (Nat.pos_of_ne_zero fun h => by
    have hk := k.isLt
    simp [h] at hk)⟩

/-- The row of a position is its first number. -/
@[simp] theorem row_index (i j : Fin side) : row (index i j) = i := by
  have hpos : 0 < side := Nat.lt_of_le_of_lt (Nat.zero_le _) j.isLt
  refine Fin.ext ?_
  show (i.val * side + j.val) / side = i.val
  rw [Nat.mul_comm, Nat.mul_add_div hpos, Nat.div_eq_of_lt j.isLt, Nat.add_zero]

/-- The column of a position is its second number. -/
@[simp] theorem column_index (i j : Fin side) : column (index i j) = j := by
  refine Fin.ext ?_
  show (i.val * side + j.val) % side = j.val
  rw [Nat.mul_add_mod_self_right, Nat.mod_eq_of_lt j.isLt]

/-- Row and column lead back to the flat index. -/
@[simp] theorem index_row_column (k : Fin (side * side)) : index (row k) (column k) = k :=
  Fin.ext (Nat.div_add_mod' k.val side)

/-! ### Entries -/

/-- The tile of zeros. -/
def zero : Tile side := ⟨Vector.replicate (side * side) 0⟩

/-- The entry at a position. -/
def get (t : Tile side) (i j : Fin side) : UInt64 := t.words[index i j]

/-- Writes one entry. -/
def set (t : Tile side) (i j : Fin side) (x : UInt64) : Tile side :=
  ⟨t.words.set (index i j).val x (index i j).isLt⟩

/-- The tile with given entries. -/
def ofFn (f : Fin side → Fin side → UInt64) : Tile side :=
  ⟨Vector.ofFn fun k => f (row k) (column k)⟩

/-- Changes every entry in a way that may depend on its position. -/
def mapEntries (f : Fin side → Fin side → UInt64 → UInt64) (t : Tile side) : Tile side :=
  ⟨t.words.mapFinIdx fun k x h => f (row ⟨k, h⟩) (column ⟨k, h⟩) x⟩

/-- Combines two tiles entry by entry. -/
def zipWith (f : UInt64 → UInt64 → UInt64) (s t : Tile side) : Tile side :=
  ⟨Vector.zipWith f s.words t.words⟩

/-- The first entry in flat order that is not below a bound. -/
def firstUnreduced? (t : Tile side) (bound : UInt64) : Option UInt64 :=
  t.words.toList.find? fun x => decide (bound ≤ x)

/-! ### Access by numbers

Only the flat index is checked for a single entry, so a column past the end of a row reaches
into the next one. -/

/-- The entry with the flat index `i * side + j`. -/
def get? (t : Tile side) (i j : Nat) : Option UInt64 := t.words[i * side + j]?

/-- Writes the entry with the flat index `i * side + j`. -/
def set? (t : Tile side) (i j : Nat) (x : UInt64) : Option (Tile side) :=
  if h : i * side + j < side * side then some ⟨t.words.set (i * side + j) x h⟩ else none

/-- The words of a row. -/
def row? (t : Tile side) (i : Nat) : Option (Vector UInt64 side) :=
  if h : i < side then some (Vector.ofFn fun j => t.get ⟨i, h⟩ j) else none

/-- Replaces a row. -/
def setRow? (t : Tile side) (i : Nat) (values : Vector UInt64 side) : Option (Tile side) :=
  if i < side then
    some (t.mapEntries fun r c x => if r.val = i then values.get c else x)
  else none

/-! ### What the operations do to entries -/

/-- Two tiles with the same entries are equal. -/
theorem ext_get {s t : Tile side} (h : ∀ i j, s.get i j = t.get i j) : s = t := by
  cases s with
  | mk s =>
    cases t with
    | mk t =>
      refine congrArg mk (Vector.ext fun k hk => ?_)
      have hrc := h (row ⟨k, hk⟩) (column ⟨k, hk⟩)
      simpa [get] using hrc

/-- The entries of a tile are those it was made of. -/
@[simp] theorem get_ofFn (f : Fin side → Fin side → UInt64) (i j : Fin side) :
    (ofFn f).get i j = f i j := by
  have h : (ofFn f).get i j = f (row (index i j)) (column (index i j)) := by
    simp [get, ofFn]
  rw [h, row_index, column_index]

/-- Every entry is changed by the function of its position. -/
@[simp] theorem get_mapEntries (f : Fin side → Fin side → UInt64 → UInt64) (t : Tile side)
    (i j : Fin side) : (t.mapEntries f).get i j = f i j (t.get i j) := by
  have h : (t.mapEntries f).get i j =
      f (row (index i j)) (column (index i j)) (t.get i j) := by
    simp [get, mapEntries]
  rw [h, row_index, column_index]

/-- Entries are combined in their places. -/
@[simp] theorem get_zipWith (f : UInt64 → UInt64 → UInt64) (s t : Tile side) (i j : Fin side) :
    (zipWith f s t).get i j = f (s.get i j) (t.get i j) := by
  simp [get, zipWith]

end Tile

/-- One tile for each channel that the engine has room for. -/
abbrev Bank (g : Geometry) := Vector (Tile g.side) g.capacity

/-- The bank of zero tiles. -/
def Bank.zero (g : Geometry) : Bank g := Vector.replicate g.capacity Tile.zero

end RnsEngine
