import Mathlib.Algebra.BigOperators.Group.Finset.Basic
import RnsEngine.Proofs.Fold
import RnsEngine.Systolic.Grid

/-!
# Cells and links after so many cycles

Between two cycles every link of the grid is empty, and what cell `(i, j)` has in its registers is
determined by the number of cycles: the word of the row of the stream that entered `i + j + 1`
cycles ago, if there is one, and the sum of the products of that row in the cells of the column down
to this one (`Grid.cellAt`). A grid at rest is so before the first cycle (`Grid.cellsAt_atRest`),
and a cycle carries it on (`Grid.CellsAt.cycle`).

Within a cycle one word is pushed into every link and popped again, so that what arrives at a cell
is what its neighbour had in its registers.
-/

namespace RnsEngine

/-! ### Links within a cycle -/

namespace Link

variable {α : Type} {l : Link α}

/-- The word pushed into an empty link is the one that arrives. -/
theorem arriving_push [Inhabited α] (h : l.toList = []) (x : α) :
    Grid.arriving (l.push x).2 = x := by
  rw [Grid.arriving, (Link.pop_eq _).1, Link.toList_push, h]
  rfl

/-- A link into which one word was pushed is empty again after a pop. -/
theorem toList_pop_push (h : l.toList = []) (x : α) : ((l.push x).2.pop.2).toList = [] := by
  rw [(Link.pop_eq _).2, Link.toList_push, h]
  rfl

end Link

/-! ### Rows under way -/

namespace Shape

variable (s : Shape)

/-- The row of the stream that has been under way for `lag` cycles after `t` cycles. -/
def rowAt (t lag : ℕ) : Option ℕ := if lag ≤ t ∧ t < lag + s.rows then some (t - lag) else none

/-- A cycle later the same row has been under way for a cycle more. -/
@[simp] theorem rowAt_succ (t lag : ℕ) : s.rowAt (t + 1) (lag + 1) = s.rowAt t lag := by
  have hiff : t + 1 < lag + 1 + s.rows ↔ t < lag + s.rows := by omega
  simp only [rowAt, Nat.add_le_add_iff_right, Nat.add_sub_add_right, hiff]

/-- No row has been under way before the first cycle. -/
@[simp] theorem rowAt_zero (lag : ℕ) : s.rowAt 0 (lag + 1) = none := by
  simp [rowAt]

/-- A row is under way as long as its word is between the first and the last row. -/
theorem rowAt_eq_some_iff {t lag r : ℕ} : s.rowAt t lag = some r ↔ r < s.rows ∧ t = lag + r := by
  rw [rowAt]
  split
  · rw [Option.some_inj]
    omega
  · constructor
    · intro h
      cases h
    · omega

/-- No row is under way before the first has entered, or after the last has arrived. -/
theorem rowAt_eq_none_iff {t lag : ℕ} : s.rowAt t lag = none ↔ t < lag ∨ lag + s.rows ≤ t := by
  rw [rowAt]
  split
  · constructor
    · intro h
      cases h
    · omega
  · exact ⟨fun _ => by omega, fun _ => rfl⟩

/-- The word of a row for a row of cells; without a row it is zero. -/
def wordOf (input : Array UInt64) (row : Option ℕ) (i : ℕ) : UInt64 :=
  row.elim 0 fun r => input.getD (r * s.inputs + i) 0

/-- The sum of the products of a row with a column of weights, over the first `m` rows of cells. -/
def sumOf (input weights : Array UInt64) (row : Option ℕ) (j m : ℕ) : ℕ :=
  row.elim 0 fun r => ∑ k ∈ Finset.range m,
    (input.getD (r * s.inputs + k) 0).toNat * (weights.getD (k * s.outputs + j) 0).toNat

/-- The feed delivers the word of the row that enters. -/
theorem feed_eq (input : Array UInt64) (t i : ℕ) :
    Grid.feed s input t i = s.wordOf input (s.rowAt t i) i := by
  rw [Grid.feed, rowAt, wordOf]
  split <;> rfl

/-- Over no cells the sum is zero. -/
@[simp] theorem sumOf_zero (input weights : Array UInt64) (row : Option ℕ) (j : ℕ) :
    s.sumOf input weights row j 0 = 0 := by
  cases row <;> rfl

/-- A cell adds the product of its word and its weight. -/
theorem sumOf_succ (input weights : Array UInt64) (row : Option ℕ) (j m : ℕ) :
    s.sumOf input weights row j (m + 1) = s.sumOf input weights row j m +
      (s.wordOf input row m).toNat * (weights.getD (m * s.outputs + j) 0).toNat := by
  cases row with
  | none => simp [sumOf, wordOf]
  | some r => exact Finset.sum_range_succ _ _

end Shape

namespace Grid

variable {s : Shape} (input weights moduli : Array UInt64)

/-! ### The two halves of a cycle -/

section Halves

variable (t : ℕ) (grid : Grid s) (output : Array UInt64)

/-- Every link of a row has been pushed into. -/
theorem west_produce (i : Fin s.inputs) (j : Fin (s.outputs + 1)) :
    (produce input t grid).west i j = ((grid.west i j).push (grid.eastward input t i j)).2 := by
  simp [west, produce]

/-- Every link of a column has been pushed into. -/
theorem north_produce (i : Fin (s.inputs + 1)) (j : Fin s.outputs) :
    (produce input t grid).north i j = ((grid.north i j).push (grid.southward j i)).2 := by
  simp [north, produce]

/-- Every cell has latched what arrived. -/
theorem cell_consume (i : Fin s.inputs) (j : Fin s.outputs) :
    (grid.consume output).1.cell i j =
      (grid.cell i j).latch (arriving (grid.west i j.castSucc))
        (arriving (grid.north i.castSucc j)) := by
  simp [cell, west, north, consume, latched]

/-- Every link of a row has been popped. -/
theorem west_consume (i : Fin s.inputs) (j : Fin (s.outputs + 1)) :
    (grid.consume output).1.west i j = (grid.west i j).pop.2 := by
  simp [west, consume]

/-- Every link of a column has been popped. -/
theorem north_consume (i : Fin (s.inputs + 1)) (j : Fin s.outputs) :
    (grid.consume output).1.north i j = (grid.north i j).pop.2 := by
  simp [north, consume]

/-- A cycle more. -/
theorem after_succ (state : Grid s × Array UInt64) :
    after input (t + 1) state = cycle input t (after input t state) :=
  Nat.fold_succ ..

end Halves

/-! ### Cells -/

/-- A cell after so many cycles. -/
def cellAt (s : Shape) (t i j : ℕ) : Cell :=
  { weight := weights.getD (i * s.outputs + j) 0
    modulus := moduli.getD j 0
    x := s.wordOf input (s.rowAt t (i + j + 1)) i
    sum := s.sumOf input weights (s.rowAt t (i + j + 1)) j (i + 1) }

/-- The cells and the links after `t` cycles. -/
structure CellsAt (t : ℕ) (grid : Grid s) : Prop where
  cell : ∀ (i : Fin s.inputs) (j : Fin s.outputs),
    grid.cell i j = cellAt input weights moduli s t i j
  west : ∀ (i : Fin s.inputs) (j : Fin (s.outputs + 1)), (grid.west i j).toList = []
  north : ∀ (i : Fin (s.inputs + 1)) (j : Fin s.outputs), (grid.north i j).toList = []

variable {input weights moduli}

/-- A grid at rest has seen no cycle. -/
theorem cellsAt_atRest : CellsAt input weights moduli 0 (atRest s weights moduli) where
  cell i j := by
    simp [Grid.cell, atRest, Cell.ofWeight, cellAt, Shape.wordOf, Shape.sumOf]
  west i j := by simp [Grid.west, atRest]
  north i j := by simp [Grid.north, atRest]

variable {t : ℕ} {grid : Grid s}

/-- The word that arrives at a cell in cycle `t` is the one that it holds afterwards. -/
theorem CellsAt.arriving_west (h : CellsAt input weights moduli t grid) (i : Fin s.inputs)
    (j : Fin (s.outputs + 1)) :
    arriving ((produce input t grid).west i j) =
      s.wordOf input (s.rowAt (t + 1) (i + j + 1)) i := by
  rw [west_produce, Link.arriving_push (h.west i j), Shape.rowAt_succ]
  obtain ⟨j, hj⟩ := j
  cases j with
  | zero => exact s.feed_eq input t i
  | succ j =>
    -- the cell before has had the word in its register since the cycle before
    have hcell := h.cell i ⟨j, Nat.lt_of_succ_lt_succ hj⟩
    exact congrArg Cell.x hcell

/-- The sum that arrives at a cell, or at the foot of a column, is over the rows of cells above. -/
theorem CellsAt.arriving_north (h : CellsAt input weights moduli t grid)
    (i : Fin (s.inputs + 1)) (j : Fin s.outputs) :
    arriving ((produce input t grid).north i j) =
      s.sumOf input weights (s.rowAt t (i + j)) j i := by
  rw [north_produce, Link.arriving_push (h.north i j)]
  obtain ⟨i, hi⟩ := i
  cases i with
  | zero => simp [southward]
  | succ i =>
    have hcell := h.cell ⟨i, Nat.lt_of_succ_lt_succ hi⟩ j
    have hlag : i + 1 + j.val = i + j.val + 1 := Nat.add_right_comm _ _ _
    have hsum := congrArg Cell.sum hcell
    simp only [hlag]
    exact hsum

/-- **The cells and the links after a cycle** are those of one cycle more. -/
theorem CellsAt.cycle (h : CellsAt input weights moduli t grid) (output : Array UInt64) :
    CellsAt input weights moduli (t + 1) (Grid.cycle input t (grid, output)).1 where
  cell i j := by
    have hcell : (produce input t grid).cell i j = grid.cell i j := rfl
    rw [Grid.cycle, cell_consume, h.arriving_west, h.arriving_north, hcell, h.cell]
    simp only [Cell.latch, cellAt, Fin.val_castSucc, Shape.sumOf_succ, Shape.rowAt_succ]
  west i j := by
    rw [Grid.cycle, west_consume, west_produce, Link.toList_pop_push (h.west i j)]
  north i j := by
    rw [Grid.cycle, north_consume, north_produce, Link.toList_pop_push (h.north i j)]

/-- The sum that leaves a column in cycle `t`, over all rows of cells. -/
theorem CellsAt.leaving (h : CellsAt input weights moduli t grid) (j : Fin s.outputs) :
    (produce input t grid).leaving j =
      s.sumOf input weights (s.rowAt t (s.inputs + j)) j s.inputs :=
  h.arriving_north (Fin.last s.inputs) j

/-- The modulus of a column. -/
theorem CellsAt.columnModulus (h : CellsAt input weights moduli t grid) (j : Fin s.outputs) :
    (produce input t grid).columnModulus j = moduli.getD j 0 := by
  have hlast : s.inputs - 1 < s.inputs := Nat.sub_one_lt s.inputs_pos.ne'
  exact congrArg Cell.modulus (h.cell ⟨s.inputs - 1, hlast⟩ j)

end Grid

end RnsEngine
