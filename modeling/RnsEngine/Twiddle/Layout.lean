import RnsEngine.Geometry

/-!
# The layout of twiddle tables

The transform of a tile multiplies by powers of one root of unity in three places: in the
butterflies of a stage, in the twist of a row, and between its two passes. All of them are read
from one flat table of `half` lines with `ringDim` words each. A line belongs to a butterfly
unit: its first `logSide` words serve the stages, the next two the twist, and the following
`2 * side` words the entries between the passes, which the units share out in turn.

`Slot` names the factors and `Slot.index` places them. The indices are distinct
(`Slot.index_injective`) and stay below `Layout.extent` (`Slot.index_lt_extent`), which a table
of `tableSize` words covers (`Layout.extent_le_tableSize`).
-/

namespace RnsEngine

namespace Layout

/-- The place of the factor of butterfly `b` in a stage. -/
def stageIndex (g : Geometry) (stage b : Nat) : Nat := b * g.ringDim + stage

/-- The place of the factor of a row. -/
def twistIndex (g : Geometry) (row : Nat) : Nat :=
  row % g.half * g.ringDim + g.logSide + row / g.half

/-- The place of the factor between the passes of the entry in a row and column. -/
def passIndex (g : Geometry) (row column : Nat) : Nat :=
  let entry := row * g.side + column
  entry % g.half * g.ringDim + g.logSide + 2 + entry / g.half

/-- The number of words of a line that are in use. -/
def width (g : Geometry) : Nat := g.logSide + 2 + 2 * g.side

/-- One past the last place in use. -/
def extent (g : Geometry) : Nat := (g.half - 1) * g.ringDim + width g

/-- A line has room for the words in use. -/
theorem width_le_ringDim (g : Geometry) : width g ≤ g.ringDim := by
  have hsq : 4 * g.side ≤ g.side * g.side := Nat.mul_le_mul_right _ g.four_le_side
  have h4 := g.four_le_side
  have hlog := g.logSide_lt_side
  rw [width, Geometry.ringDim]
  omega

/-- A table has room for all places. -/
theorem extent_le_tableSize (g : Geometry) : extent g ≤ g.tableSize := by
  obtain ⟨h, hh⟩ : ∃ h, g.half = h + 1 := ⟨g.half - 1, by have := g.half_pos; omega⟩
  have hw := width_le_ringDim g
  rw [extent, Geometry.tableSize, hh, Nat.add_sub_cancel, Nat.add_mul, Nat.one_mul]
  omega

end Layout

/-- The factors of a transform: of a butterfly in a stage, of a row, and of an entry between
the passes. -/
inductive Slot (g : Geometry) where
  | stage (stage : Fin g.logSide) (b : Fin g.half)
  | twist (row : Fin g.side)
  | pass (row column : Fin g.side)
deriving DecidableEq

namespace Slot

variable {g : Geometry}

/-- The line of the table that a factor is on. -/
def line : Slot g → Nat
  | stage _ b => b
  | twist row => row % g.half
  | pass row column => (row * g.side + column) % g.half

/-- The place of a factor on its line. -/
def offset : Slot g → Nat
  | stage s _ => s
  | twist row => g.logSide + row / g.half
  | pass row column => g.logSide + 2 + (row * g.side + column) / g.half

/-- The place of a factor in the table. -/
def index : Slot g → Nat
  | stage s b => Layout.stageIndex g s b
  | twist row => Layout.twistIndex g row
  | pass row column => Layout.passIndex g row column

/-- The place in the table is the place on the line. -/
theorem index_eq (s : Slot g) : s.index = s.line * g.ringDim + s.offset := by
  cases s <;> simp only [index, line, offset, Layout.stageIndex, Layout.twistIndex,
    Layout.passIndex] <;> omega

/-- There are as many lines as butterflies. -/
theorem line_lt (s : Slot g) : s.line < g.half := by
  cases s with
  | stage _ b => exact b.isLt
  | twist row => exact Nat.mod_lt _ g.half_pos
  | pass row column => exact Nat.mod_lt _ g.half_pos

/-- A row takes the first or the second word of the twist. -/
theorem row_div_half_lt (row : Fin g.side) : row.val / g.half < 2 :=
  Nat.div_lt_of_lt_mul (by have := g.two_mul_half; have := row.isLt; omega)

/-- An entry takes one of `2 * side` words. -/
theorem entry_div_half_lt (row column : Fin g.side) :
    (row.val * g.side + column.val) / g.half < 2 * g.side := by
  refine Nat.div_lt_of_lt_mul ?_
  have h : (row.val + 1) * g.side ≤ g.side * g.side := Nat.mul_le_mul_right _ row.isLt
  have hc := column.isLt
  rw [Nat.add_mul, Nat.one_mul] at h
  rw [show g.half * (2 * g.side) = 2 * g.half * g.side by
    rw [Nat.mul_left_comm, Nat.mul_assoc], g.two_mul_half]
  omega

/-- The factors take the used words of a line. -/
theorem offset_lt (s : Slot g) : s.offset < Layout.width g := by
  cases s with
  | stage s _ => simp only [offset, Layout.width]; omega
  | twist row => have := row_div_half_lt row; simp only [offset, Layout.width]; omega
  | pass row column =>
    have := entry_div_half_lt row column
    simp only [offset, Layout.width]
    omega

/-- Every place is below the extent of the layout. -/
theorem index_lt_extent (s : Slot g) : s.index < Layout.extent g := by
  have hl : s.line * g.ringDim ≤ (g.half - 1) * g.ringDim :=
    Nat.mul_le_mul_right _ (by have := s.line_lt; omega)
  have ho := s.offset_lt
  rw [index_eq, Layout.extent]
  omega

/-- Every place is inside the table. -/
theorem index_lt (s : Slot g) : s.index < g.tableSize :=
  Nat.lt_of_lt_of_le s.index_lt_extent (Layout.extent_le_tableSize g)

/-- Quotient and remainder by the number of lines determine a number. -/
theorem eq_of_div_mod {a b n : Nat} (hd : a / n = b / n) (hm : a % n = b % n) : a = b := by
  rw [← Nat.div_add_mod a n, ← Nat.div_add_mod b n, hd, hm]

/-- The stages come first on a line. -/
theorem offset_stage_lt (s : Fin g.logSide) (b : Fin g.half) :
    (stage s b).offset < g.logSide := s.isLt

/-- The twist comes after the stages. -/
theorem le_offset_twist (row : Fin g.side) : g.logSide ≤ (twist row).offset :=
  Nat.le_add_right _ _

/-- The twist takes two words. -/
theorem offset_twist_lt (row : Fin g.side) : (twist row).offset < g.logSide + 2 :=
  Nat.add_lt_add_left (row_div_half_lt row) _

/-- The entries between the passes come last. -/
theorem le_offset_pass (row column : Fin g.side) : g.logSide + 2 ≤ (pass row column).offset :=
  Nat.le_add_right _ _

/-- The flat index of an entry determines its row and column. -/
theorem eq_of_entry {row row' column column' : Fin g.side}
    (h : row.val * g.side + column.val = row'.val * g.side + column'.val) :
    row = row' ∧ column = column' := by
  have hr : row.val = row'.val := by
    have hd := congrArg (· / g.side) h
    simp only [Nat.mul_comm _ g.side, Nat.mul_add_div g.side_pos,
      Nat.div_eq_of_lt column.isLt, Nat.div_eq_of_lt column'.isLt, Nat.add_zero] at hd
    exact hd
  rw [hr] at h
  exact ⟨Fin.ext hr, Fin.ext (Nat.add_left_cancel h)⟩

/-- The place on the line determines the factor. -/
theorem eq_of_line_of_offset {s t : Slot g} (hl : s.line = t.line) (ho : s.offset = t.offset) :
    s = t := by
  cases s with
  | stage s b =>
    have hs := offset_stage_lt s b
    cases t with
    | stage s' b' =>
      rw [Fin.ext (show s.val = s'.val from ho), Fin.ext (show b.val = b'.val from hl)]
    | twist row' => have := le_offset_twist row'; omega
    | pass row' column' => have := le_offset_pass row' column'; omega
  | twist row =>
    have hlow := le_offset_twist row
    have hhigh := offset_twist_lt row
    cases t with
    | stage s' b' => have := offset_stage_lt s' b'; omega
    | twist row' =>
      have hd : row.val / g.half = row'.val / g.half := Nat.add_left_cancel ho
      rw [Fin.ext (eq_of_div_mod hd hl)]
    | pass row' column' => have := le_offset_pass row' column'; omega
  | pass row column =>
    have hlow := le_offset_pass row column
    cases t with
    | stage s' b' => have := offset_stage_lt s' b'; omega
    | twist row' => have := offset_twist_lt row'; omega
    | pass row' column' =>
      obtain ⟨hr, hc⟩ := eq_of_entry (eq_of_div_mod (Nat.add_left_cancel ho) hl)
      rw [hr, hc]

/-- No two factors share a place. -/
theorem index_injective {s t : Slot g} (h : s.index = t.index) : s = t := by
  have hs := Nat.lt_of_lt_of_le s.offset_lt (Layout.width_le_ringDim g)
  have ht := Nat.lt_of_lt_of_le t.offset_lt (Layout.width_le_ringDim g)
  rw [index_eq, index_eq] at h
  have hl : s.line = t.line := by
    have hd := congrArg (· / g.ringDim) h
    simp only [Nat.mul_comm _ g.ringDim, Nat.mul_add_div g.ringDim_pos,
      Nat.div_eq_of_lt hs, Nat.div_eq_of_lt ht, Nat.add_zero] at hd
    exact hd
  refine eq_of_line_of_offset hl ?_
  rw [hl] at h
  omega

/-! ### All factors in the order in which a table is filled -/

/-- The factors of the stages. -/
def stages (g : Geometry) : List (Slot g) :=
  (List.finRange g.logSide).flatMap fun s => (List.finRange g.half).map (Slot.stage s)

/-- The factors of the rows. -/
def twists (g : Geometry) : List (Slot g) := (List.finRange g.side).map Slot.twist

/-- The factors between the passes. -/
def passes (g : Geometry) : List (Slot g) :=
  (List.finRange g.side).flatMap fun row => (List.finRange g.side).map (Slot.pass row)

/-- All factors. -/
def all (g : Geometry) : List (Slot g) := stages g ++ (twists g ++ passes g)

/-- No factor is missing. -/
theorem mem_all (s : Slot g) : s ∈ all g := by
  cases s <;> simp [all, stages, twists, passes]

end Slot

end RnsEngine
