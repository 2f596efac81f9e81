import RnsEngine.Channel.Basic
import RnsEngine.Systolic.Cell
import RnsEngine.Systolic.Link
import RnsEngine.Systolic.Shape

/-!
# The systolic grid

The grid multiplies a stream of rows by a matrix of weights that stays in its cells. Words move
to the east along the rows of cells, partial sums to the south along the columns. One clock
advances everything: in each cycle first every producer pushes one word into its link — the
feeds at the western and northern edge and the outputs of every cell — and then every consumer
pops one — the inputs of every cell, the drain at the eastern edge and the collectors below.

The feed of row `i` of cells is delayed by `i` cycles, so that the word of a row of the stream
meets the partial sum of that row. Column `j` delivers its first sum after `inputs + j` cycles;
its collector lets so many sums pass and keeps the following ones, reduced modulo the modulus of
the column.
-/

namespace RnsEngine

/-- What the foot of a column has counted: the sums that passed and those that were kept. -/
structure Collector where
  discarded : Nat
  captured : Nat
deriving DecidableEq, Repr

/-- The cells with their links. `across[i][j]` leads into cell `(i, j)` from the west and
`down[j][i]` from the north; the last link of a row or column leads out of the grid. -/
structure Grid (s : Shape) where
  cells : Vector (Vector Cell s.outputs) s.inputs
  across : Vector (Vector (Link UInt64) (s.outputs + 1)) s.inputs
  down : Vector (Vector (Link Nat) (s.inputs + 1)) s.outputs
  collectors : Vector Collector s.outputs
deriving DecidableEq

/-- The outcome of a run: the cycles it took and the output buffer. -/
structure Product where
  cycles : Nat
  output : Array UInt64
deriving DecidableEq, Repr

namespace Grid

variable {s : Shape}

/-- The cell in row `i` and column `j`. -/
def cell (grid : Grid s) (i : Fin s.inputs) (j : Fin s.outputs) : Cell := grid.cells[i][j]

/-- The link of row `i` that leads into column `j` from the west. -/
def west (grid : Grid s) (i : Fin s.inputs) (j : Fin (s.outputs + 1)) : Link UInt64 :=
  grid.across[i][j]

/-- The link of column `j` that leads into row `i` from the north. -/
def north (grid : Grid s) (i : Fin (s.inputs + 1)) (j : Fin s.outputs) : Link Nat :=
  grid.down[j][i]

/-! ### Installation -/

/-- The first word among the leading `count` that is too large for an accumulator. -/
def firstTooLarge? (words : Array UInt64) (count : Nat) : Option UInt64 :=
  (words.toList.take count).find? fun x => decide (modulusBound ≤ x)

/-- Refuses a buffer with fewer words than expected. -/
def checkSize (role : Role) (expected : Nat) (words : Array UInt64) : Except Fault Unit :=
  if words.size < expected then .error (.bufferTooShort role expected words.size) else .ok ()

/-- Refuses words that are too large for an accumulator. -/
def checkOperands (role : Role) (count : Nat) (words : Array UInt64) : Except Fault Unit :=
  match firstTooLarge? words count with
  | some x => .error (.operandOutOfRange role x modulusBound)
  | none => .ok ()

/-- The grid with given weights and moduli at rest. -/
def atRest (s : Shape) (weights moduli : Array UInt64) : Grid s :=
  { cells := Vector.ofFn fun i => Vector.ofFn fun j =>
      Cell.ofWeight (weights.getD (i.val * s.outputs + j.val) 0) (moduli.getD j.val 0)
    across := Vector.replicate _ (Vector.replicate _ Link.empty)
    down := Vector.replicate _ (Vector.replicate _ Link.empty)
    collectors := Vector.replicate _ { discarded := 0, captured := 0 } }

/-- Installs a matrix of weights, row after row, and the modulus of every column. -/
def install (s : Shape) (weights moduli : Array UInt64) : Except Fault (Grid s) := do
  checkSize .conversionWeights (s.inputs * s.outputs) weights
  checkSize .conversionModuli s.outputs moduli
  checkOperands .conversionWeights (s.inputs * s.outputs) weights
  if (moduli.toList.take s.outputs).contains 0 then throw (.modulusOutOfRange 0)
  return atRest s weights moduli

/-- The cell at a place counted row after row; only the place is checked, not the column. -/
def cell? (grid : Grid s) (i j : Nat) : Option Cell :=
  let place := i * s.outputs + j
  if h : place < s.inputs * s.outputs then
    have hi : place / s.outputs < s.inputs := Nat.div_lt_of_lt_mul (Nat.mul_comm _ _ ▸ h)
    have hj : place % s.outputs < s.outputs := Nat.mod_lt _ s.outputs_pos
    some grid.cells[place / s.outputs][place % s.outputs]
  else none

/-! ### One cycle -/

/-- The word that enters row `i` of the cells in cycle `t`. -/
def feed (s : Shape) (input : Array UInt64) (t i : Nat) : UInt64 :=
  if i ≤ t ∧ t < i + s.rows then input.getD ((t - i) * s.inputs + i) 0 else 0

/-- The word that is pushed into a link of a row: from the feed or from the cell before. -/
def eastward (grid : Grid s) (input : Array UInt64) (t : Nat) (i : Fin s.inputs)
    (j : Fin (s.outputs + 1)) : UInt64 :=
  match j with
  | ⟨0, _⟩ => feed s input t i.val
  | ⟨j + 1, h⟩ =>
    have hj : j < s.outputs := Nat.lt_of_succ_lt_succ h
    (grid.cells[i][j]).emit.1

/-- The sum that is pushed into a link of a column: zero at the top, or from the cell above. -/
def southward (grid : Grid s) (j : Fin s.outputs) (i : Fin (s.inputs + 1)) : Nat :=
  match i with
  | ⟨0, _⟩ => 0
  | ⟨i + 1, h⟩ =>
    have hi : i < s.inputs := Nat.lt_of_succ_lt_succ h
    (grid.cells[i][j]).emit.2

/-- Every producer pushes one word. -/
def produce (input : Array UInt64) (t : Nat) (grid : Grid s) : Grid s :=
  { grid with
    across := grid.across.mapFinIdx fun i links hi =>
      links.mapFinIdx fun j link hj => (link.push (grid.eastward input t ⟨i, hi⟩ ⟨j, hj⟩)).2
    down := grid.down.mapFinIdx fun j links hj =>
      links.mapFinIdx fun i link hi => (link.push (grid.southward ⟨j, hj⟩ ⟨i, hi⟩)).2 }

/-- The word that arrives at the end of a link; nothing counts as zero. -/
def arriving {α : Type} [Inhabited α] (link : Link α) : α := link.pop.1.getD default

/-- Every cell latches what arrives from the west and from the north. -/
def latched (grid : Grid s) : Vector (Vector Cell s.outputs) s.inputs :=
  grid.cells.mapFinIdx fun i row hi => row.mapFinIdx fun j cell hj =>
    cell.latch (arriving grid.across[i][j]) (arriving grid.down[j][i])

/-- The sum that leaves a column. -/
def leaving (grid : Grid s) (j : Fin s.outputs) : Nat := arriving grid.down[j][s.inputs]

/-- The modulus of a column, held by its last cell. -/
def columnModulus (grid : Grid s) (j : Fin s.outputs) : UInt64 :=
  have h : s.inputs - 1 < s.inputs := Nat.sub_one_lt (Nat.ne_of_gt s.inputs_pos)
  (grid.cells[s.inputs - 1][j]).modulus

/-- A collector receives a sum: it lets it pass, or writes its residue to the output, or has
all rows already. -/
def collect (s : Shape) (j : Fin s.outputs) (sum : Nat) (modulus : UInt64)
    (collector : Collector) (output : Array UInt64) : Collector × Array UInt64 :=
  if collector.discarded < s.inputs + j.val then
    ({ collector with discarded := collector.discarded + 1 }, output)
  else if collector.captured < s.rows then
    ({ collector with captured := collector.captured + 1 },
      output.setIfInBounds (collector.captured * s.outputs + j.val)
        (UInt64.ofNat (sum % modulus.toNat)))
  else (collector, output)

/-- What the collector of a column makes of a sum. -/
def collectColumn (j : Fin s.outputs) (sum : Nat) (modulus : UInt64)
    (state : Vector Collector s.outputs × Array UInt64) :
    Vector Collector s.outputs × Array UInt64 :=
  let (collector, output) := collect s j sum modulus (state.1.get j) state.2
  (state.1.set j.val collector j.isLt, output)

/-- Every collector receives the sum of its column. -/
def collectAll (grid : Grid s) (output : Array UInt64) :
    Vector Collector s.outputs × Array UInt64 :=
  Fin.foldl s.outputs
    (fun state j => collectColumn j (grid.leaving j) (grid.columnModulus j) state)
    (grid.collectors, output)

/-- Every consumer pops one word. -/
def consume (grid : Grid s) (output : Array UInt64) : Grid s × Array UInt64 :=
  let (collectors, output) := grid.collectAll output
  ({ cells := grid.latched
     across := grid.across.map fun links => links.map fun link => link.pop.2
     down := grid.down.map fun links => links.map fun link => link.pop.2
     collectors }, output)

/-- One cycle of the clock. -/
def cycle (input : Array UInt64) (t : Nat) (state : Grid s × Array UInt64) :
    Grid s × Array UInt64 :=
  (produce input t state.1).consume state.2

/-- The grid and the output after so many cycles. -/
def after (input : Array UInt64) (cycles : Nat) (state : Grid s × Array UInt64) :
    Grid s × Array UInt64 :=
  Nat.fold cycles (fun t _ state => cycle input t state) state

/-! ### A whole product -/

/-- Streams the rows of the input through the grid, over the given output. -/
def run (grid : Grid s) (input output : Array UInt64) : Except Fault Product := do
  checkSize .conversionInput (s.rows * s.inputs) input
  checkSize .conversionOutput (s.rows * s.outputs) output
  checkOperands .conversionInput (s.rows * s.inputs) input
  return { cycles := s.cycles, output := (after input s.cycles (grid, output)).2 }

/-- The product of the input with the weights, written over the output. -/
def multiply (s : Shape) (input weights moduli output : Array UInt64) :
    Except Fault Product := do
  let grid ← install s weights moduli
  grid.run input output

end Grid

end RnsEngine
