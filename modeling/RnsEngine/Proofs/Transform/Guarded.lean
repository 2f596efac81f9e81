import RnsEngine.Proofs.Transform.Operands

/-!
# The indices of the datapath

The datapath works on positions that are known to exist. Here it is written once more with the
numbers that its positions are computed as, and guarded (`Datapath.transformGuarded`): it gives up
on an index past the end of a table, a tile or a lane, on an operand that is not reduced, and on a
word that is not reduced and about to be written.

Most of what the datapath does is to copy words from place to place, which is one program
(`Channel.copyGuarded`) with the indices as parameters. From a reduced tile and with reduced factors
no guard applies, and the run is the transform (`Datapath.transformGuarded_eq`).
-/

namespace RnsEngine

/-! ### Guarded access -/

/-- The flat place of a row and a column, both of which must be in the square. -/
def guardedPlace (side i j : ℕ) : Option ℕ :=
  if i < side ∧ j < side then some (i * side + j) else none

/-- The word of a tile in a row and a column. -/
def Tile.readGuarded {side : ℕ} (t : Tile side) (i j : ℕ) : Option UInt64 := do
  let k ← guardedPlace side i j
  t.words[k]?

namespace Channel

variable (c : Channel)

/-- Writes a word, which must be reduced, to a place that must exist. -/
def writeGuarded {n : ℕ} (v : Vector UInt64 n) (k : ℕ) (x : UInt64) : Option (Vector UInt64 n) :=
  if h : k < n ∧ x < c.modulus then some (v.set k x h.1) else none

/-- Copies so many words, one after the other, from where they are read to their places. -/
def copyGuarded (m : ℕ) (read : ℕ → Option UInt64) (place : ℕ → Option ℕ) {n : ℕ}
    (v : Vector UInt64 n) : Option (Vector UInt64 n) :=
  Fin.foldlM m (fun v i => do
    let x ← read i.val
    let k ← place i.val
    c.writeGuarded v k x) v

end Channel

/-! ### The guarded datapath -/

namespace Lanes

variable {g : Geometry} (c : Channel) (t : Table)

/-- Applies butterfly `b` of a stage to a buffer. -/
def combineGuarded (g : Geometry) (s b : ℕ) {n : ℕ} (v : Vector UInt64 n) :
    Option (Vector UInt64 n) := do
  let factor ← t.get? (Layout.stageIndex g s b)
  let x ← v[Butterfly.first s b]?
  let y ← v[Butterfly.second s b]?
  let (low, high) ← c.asserting.butterfly x y factor
  let v ← c.writeGuarded v (Butterfly.first s b) low
  c.writeGuarded v (Butterfly.second s b) high

/-- The cyclic transform of the lane. -/
def cyclicDftGuarded (l : Lanes g) : Option (Lanes g) := do
  let permuted ← c.copyGuarded g.side (fun i => l.lane[reverseBits i g.logSide]?) some l.permuted
  let permuted ← Fin.foldlM g.logSide (fun v s =>
    Fin.foldlM g.half (fun v b => combineGuarded c t g s.val b.val v) v) permuted
  return { lane := permuted, permuted }

end Lanes

/-- Multiplies the entry with a flat index in its place by the factor at an index of the table. -/
def multiplyEntryGuarded (c : Channel) (t : Table) (index : ℕ → ℕ → ℕ) {side : ℕ} (k : ℕ)
    (words : Vector UInt64 (side * side)) : Option (Vector UInt64 (side * side)) := do
  let factor ← t.get? (index (k / side) (k % side))
  let x ← (Tile.mk words).readGuarded (k / side) (k % side)
  let y ← c.asserting.mul x factor
  let place ← guardedPlace side (k / side) (k % side)
  c.writeGuarded words place y

namespace Datapath

variable {g : Geometry} (c : Channel) (t : Table)

/-- A difference of positions, which wraps around like a word. -/
def wrappedSub (side a b : ℕ) : ℕ := (a + 2 ^ 64 - b) % 2 ^ 64 % side

/-- One pass of the permutation network: the entry of a row and a column goes to another one. -/
def passGuarded (dest : ℕ → ℕ → ℕ × ℕ) (d : Datapath g) : Option (Datapath g) := do
  let staging := d.tile
  let words ← c.copyGuarded (g.side * g.side)
    (fun k => staging.readGuarded (k / g.side) (k % g.side))
    (fun k =>
      let (i, j) := dest (k / g.side) (k % g.side)
      guardedPlace g.side i j) d.tile.words
  return { d with tile := ⟨words⟩, staging }

/-- Rotates row `i` by `i` places. -/
def interleaveGuarded (shift : Shift) (d : Datapath g) : Option (Datapath g) :=
  match shift with
  | .right => d.passGuarded c fun i j => (i, (j + i) % g.side)
  | .left => d.passGuarded c fun i j => (i, wrappedSub g.side j i)

/-- Transposes the tile in three passes. -/
def transposeGuarded (d : Datapath g) : Option (Datapath g) := do
  let d ← d.interleaveGuarded c .right
  let d ← d.passGuarded c fun row column => (wrappedSub g.side column row, column)
  d.interleaveGuarded c .left

/-- Multiplies every entry in its place by the factor at an index of the table. -/
def multiplyGuarded (index : ℕ → ℕ → ℕ) (d : Datapath g) : Option (Datapath g) := do
  let words ← Fin.foldlM (g.side * g.side) (fun words k =>
    multiplyEntryGuarded c t index k.val words) d.tile.words
  return { d with tile := ⟨words⟩ }

/-- Transforms the words at given positions of the tile, one for each place of the lane. -/
def alongLaneGuarded (place : ℕ → ℕ × ℕ) (d : Datapath g) : Option (Datapath g) := do
  let lane ← c.copyGuarded g.side (fun i => d.tile.readGuarded (place i).1 (place i).2) some d.lane
  let lanes ← Lanes.cyclicDftGuarded c t { lane, permuted := d.permuted }
  let words ← c.copyGuarded g.side (fun i => lanes.lane[i]?)
    (fun i => guardedPlace g.side (place i).1 (place i).2) d.tile.words
  return { d with toLanes := lanes, tile := ⟨words⟩ }

/-- Transforms every column of a tile whose rows are rotated to the right. -/
def columnPassesGuarded (d : Datapath g) : Option (Datapath g) :=
  Fin.foldlM g.side (fun d column =>
    d.alongLaneGuarded c t fun i => (i, (i + column.val) % g.side)) d

/-- Transforms every row. -/
def rowPassesGuarded (d : Datapath g) : Option (Datapath g) :=
  Fin.foldlM g.side (fun d row => d.alongLaneGuarded c t (Prod.mk row.val)) d

/-- The forward transform. -/
def evaluateGuarded (d : Datapath g) : Option (Datapath g) := do
  let d ← d.multiplyGuarded c t fun row _ => Layout.twistIndex g row
  let d ← d.interleaveGuarded c .right
  let d ← d.columnPassesGuarded c t
  let d ← d.interleaveGuarded c .left
  let d ← d.multiplyGuarded c t (Layout.passIndex g)
  let d ← d.rowPassesGuarded c t
  d.transposeGuarded c

/-- The inverse transform. -/
def interpolateGuarded (d : Datapath g) : Option (Datapath g) := do
  let d ← d.transposeGuarded c
  let d ← d.rowPassesGuarded c t
  let d ← d.multiplyGuarded c t (Layout.passIndex g)
  let d ← d.interleaveGuarded c .right
  let d ← d.columnPassesGuarded c t
  let d ← d.interleaveGuarded c .left
  d.multiplyGuarded c t fun row _ => Layout.twistIndex g row

/-- The transform in the direction of the table. -/
def transformGuarded (d : Datapath g) : Option (Datapath g) :=
  match t.direction with
  | .forward => d.evaluateGuarded c t
  | .inverse => d.interpolateGuarded c t

end Datapath

/-! ### Runs on reduced words -/

/-- A position inside the square has a place. -/
theorem guardedPlace_eq {side : ℕ} (i j : Fin side) :
    guardedPlace side i.val j.val = some (Tile.index i j).val :=
  if_pos ⟨i.isLt, j.isLt⟩

/-- A word inside the square is read. -/
theorem Tile.readGuarded_eq {side : ℕ} (t : Tile side) (i j : Fin side) :
    t.readGuarded i.val j.val = some (t.get i j) := by
  rw [readGuarded, guardedPlace_eq]
  exact Vector.getElem?_eq_getElem (Tile.index i j).isLt

/-- The word with a flat index is read at its row and column. -/
theorem Tile.readGuarded_flat {side : ℕ} (t : Tile side) (k : Fin (side * side)) :
    t.readGuarded (k.val / side) (k.val % side) = some (t.words.get k) :=
  (t.readGuarded_eq (row k) (column k)).trans (congrArg some (t.get_row_column k))

/-- The place of a row and column of a flat index is this index. -/
theorem guardedPlace_flat {side : ℕ} (k : Fin (side * side)) :
    guardedPlace side (k.val / side) (k.val % side) = some k.val :=
  (guardedPlace_eq (Tile.row k) (Tile.column k)).trans
    (congrArg (fun k => some k.val) (Tile.index_row_column k))

namespace Channel

variable {c : Channel}

/-- A reduced word is written to a place that exists. -/
theorem writeGuarded_eq {n k : ℕ} (v : Vector UInt64 n) (hk : k < n) {x : UInt64}
    (hx : x < c.modulus) : c.writeGuarded v k x = some (v.set k x hk) :=
  dif_pos ⟨hk, hx⟩

/-- Reduced words that can be read are scattered to places that exist. -/
theorem copyGuarded_eq {m n : ℕ} {read : ℕ → Option UInt64} {place : ℕ → Option ℕ}
    {value : Fin m → UInt64} {target : Fin m → Fin n}
    (hread : ∀ i, read i.val = some (value i)) (hplace : ∀ i, place i.val = some (target i).val)
    (hvalue : ∀ i, value i < c.modulus) (v : Vector UInt64 n) :
    c.copyGuarded m read place v = some (scatter target value v) := by
  refine (foldlM_eq_pure (P := fun _ => True) trivial fun v i _ => ⟨?_, trivial⟩).1
  rw [hread, hplace]
  exact writeGuarded_eq v (target i).isLt (hvalue i)

end Channel

section Runs

variable {g : Geometry} {c : Channel} {t : Table} {h : t.Covers g}

namespace Lanes

/-- A butterfly of reduced words with a reduced factor. -/
theorem combineGuarded_eq (ht : t.All (· < c.modulus) h) (s : Fin g.logSide) (b : Fin g.half)
    {v : Vector UInt64 g.side} (hv : ∀ x ∈ v, x < c.modulus) :
    combineGuarded c t g s.val b.val v = some (combine c t h s v b) := by
  have hfirst := Butterfly.first_lt s b
  have hsecond := Butterfly.second_lt s b
  obtain ⟨hrun, hlow, hhigh⟩ := (ArithmeticUnit.computes_asserting c).butterfly
    (hv _ (Vector.getElem_mem hfirst)) (hv _ (Vector.getElem_mem hsecond)) (ht (.stage s b))
  have hfactor : t.get? (Layout.stageIndex g s b) = some (t.read h (.stage s b)) :=
    t.get?_index h (.stage s b)
  rw [combineGuarded, hfactor, Vector.getElem?_eq_getElem hfirst,
    Vector.getElem?_eq_getElem hsecond]
  refine (congrArg (· >>= _) hrun).trans ?_
  refine (congrArg (· >>= _) (Channel.writeGuarded_eq v hfirst hlow)).trans ?_
  exact Channel.writeGuarded_eq _ hsecond hhigh

/-- A lane of reduced words. -/
theorem cyclicDftGuarded_eq (ht : t.All (· < c.modulus) h) {l : Lanes g}
    (hl : ∀ x ∈ l.lane, x < c.modulus) :
    l.cyclicDftGuarded c t = some (cyclicDft c t h l) := by
  have hword : ∀ i, l.lane.get (bitReversed g i) < c.modulus := fun i =>
    hl _ (Vector.getElem_mem _)
  have hcopy : c.copyGuarded g.side (fun i => l.lane[reverseBits i g.logSide]?) some l.permuted =
      some (scatter id (fun i => l.lane.get (bitReversed g i)) l.permuted) :=
    Channel.copyGuarded_eq (fun i => Vector.getElem?_eq_getElem (bitReversed g i).isLt)
      (fun _ => rfl) hword l.permuted
  have hstart : ∀ x ∈ scatter id (fun i => l.lane.get (bitReversed g i)) l.permuted,
      x < c.modulus := by
    rw [scatter_id]
    exact forall_mem_ofFn hword
  have hstage : ∀ (v : Vector UInt64 g.side) s, (∀ x ∈ v, x < c.modulus) →
      Fin.foldlM g.half (fun v b => combineGuarded c t g s.val b.val v) v =
        pure (stage c t h v s) ∧ ∀ x ∈ stage c t h v s, x < c.modulus := fun v s hv =>
    foldlM_eq_pure (P := fun v : Vector UInt64 g.side => ∀ x ∈ v, x < c.modulus) hv fun v b hv =>
      ⟨combineGuarded_eq ht s b hv,
        (combineOn_eq (ArithmeticUnit.computes_asserting c) ht s v b hv).2⟩
  have hrun := (foldlM_eq_pure hstart hstage).1
  rw [cyclicDftGuarded]
  refine (congrArg (· >>= _) hcopy).trans ?_
  exact congrArg (· >>= _) hrun

end Lanes

namespace Datapath

variable {d : Datapath g}

/-- A difference of positions is taken on the circle of the side. -/
theorem wrappedSub_eq (a b : Fin g.side) : wrappedSub g.side a.val b.val = (a - b).val := by
  have hb := b.isLt
  obtain ⟨k, hk⟩ : g.side ∣ 2 ^ 64 := Nat.pow_dvd_pow 2 (Nat.le_trans g.logSide_le (by decide))
  obtain ⟨k, rfl⟩ : ∃ k', k = k' + 1 := Nat.exists_eq_succ_of_ne_zero (by rintro rfl; omega)
  -- the circle of words goes a whole number of times around that of the side
  have hsum : a.val + 2 ^ 64 - b.val = g.side - b.val + a.val + g.side * k := by
    rw [hk, Nat.mul_succ]
    omega
  rw [wrappedSub, Nat.mod_mod_of_dvd _ ⟨k + 1, hk⟩, hsum, Nat.add_mul_mod_self_left, Fin.sub_def]

/-- A pass of the permutation network. -/
theorem passGuarded_eq (dest : ℕ → ℕ → ℕ × ℕ)
    (target : Fin g.side → Fin g.side → Fin g.side × Fin g.side)
    (hdest : ∀ i j, dest i.val j.val = ((target i j).1.val, (target i j).2.val))
    (hd : d.tile.All (· < c.modulus)) :
    d.passGuarded c dest = some (d.permute (Staged.pass target)) := by
  have hread : ∀ k : Fin (g.side * g.side),
      d.tile.readGuarded (k.val / g.side) (k.val % g.side) = some (d.tile.words.get k) := fun k =>
    d.tile.readGuarded_flat k
  have hplace : ∀ k : Fin (g.side * g.side),
      guardedPlace g.side (dest (k.val / g.side) (k.val % g.side)).1
          (dest (k.val / g.side) (k.val % g.side)).2 =
        some (Tile.index (target (Tile.row k) (Tile.column k)).1
          (target (Tile.row k) (Tile.column k)).2).val := by
    intro k
    have hpos := hdest (Tile.row k) (Tile.column k)
    exact hpos ▸ guardedPlace_eq _ _
  have hword : ∀ k, d.tile.words.get k < c.modulus := fun k => hd _ (Vector.getElem_mem k.isLt)
  exact congrArg (· >>= _) (Channel.copyGuarded_eq hread hplace hword d.tile.words)

/-- Rotating the rows. -/
theorem interleaveGuarded_eq (hd : d.tile.All (· < c.modulus)) (shift : Shift) :
    d.interleaveGuarded c shift = some (d.permute (Staged.interleave shift)) := by
  cases shift with
  | right =>
    exact passGuarded_eq (fun i j => (i, (j + i) % g.side)) (fun i j => (i, j + i))
      (fun i j => by rw [Fin.val_add]) hd
  | left =>
    exact passGuarded_eq (fun i j => (i, wrappedSub g.side j i)) (fun i j => (i, j - i))
      (fun i j => by rw [wrappedSub_eq]) hd

/-- Transposing. -/
theorem transposeGuarded_eq (hd : d.tile.All (· < c.modulus)) :
    d.transposeGuarded c = some (d.permute Staged.transpose) := by
  let rotated := d.permute (Staged.interleave .right)
  let reflected := rotated.permute Staged.reflect
  have hrotated : rotated.tile.All (· < c.modulus) := all_interleave hd .right
  have hreflected : reflected.tile.All (· < c.modulus) :=
    Staged.all_pass (s := ⟨rotated.tile, rotated.staging⟩) hrotated fun r c => (c - r, c)
  have hreflect := passGuarded_eq (fun row column => (wrappedSub g.side column row, column))
    (fun r c => (c - r, c)) (fun i j => by rw [wrappedSub_eq]) hrotated
  refine (congrArg (· >>= _) (interleaveGuarded_eq hd .right)).trans ?_
  exact (congrArg (· >>= _) hreflect).trans (interleaveGuarded_eq hreflected .left)

/-- Multiplying every entry by a factor that is found in the table. -/
theorem multiplyGuarded_eq {index : ℕ → ℕ → ℕ} {factor : Fin g.side → Fin g.side → UInt64}
    (hindex : ∀ i j, t.get? (index i.val j.val) = some (factor i j))
    (hfactor : ∀ i j, factor i j < c.modulus) (hd : d.tile.All (· < c.modulus)) :
    d.multiplyGuarded c t index =
      some { d with tile := d.tile.mapEntries fun i j x => c.mul x (factor i j) } := by
  let f := fun (k : Fin (g.side * g.side)) x => c.mul x (factor (Tile.row k) (Tile.column k))
  have hstep : ∀ (v : Vector UInt64 (g.side * g.side)) (k : Fin (g.side * g.side)),
      (∀ x ∈ v, x < c.modulus) →
        multiplyEntryGuarded c t index k.val v = pure (v.set k.val (f k (v.get k)) k.isLt) ∧
          ∀ x ∈ v.set k.val (f k (v.get k)) k.isLt, x < c.modulus := by
    intro v k hv
    have hx : v.get k < c.modulus := hv _ (Vector.getElem_mem k.isLt)
    have hy := (ArithmeticUnit.computes_asserting c).mul hx (hfactor (Tile.row k) (Tile.column k))
    refine ⟨?_, forall_mem_set hv k.isLt hy.2⟩
    rw [multiplyEntryGuarded, Tile.readGuarded_flat, guardedPlace_flat]
    refine (congrArg (· >>= _) (hindex (Tile.row k) (Tile.column k))).trans ?_
    refine (congrArg (· >>= _) hy.1).trans ?_
    exact Channel.writeGuarded_eq v k.isLt hy.2
  have hrun := (foldlM_eq_pure (P := fun v : Vector UInt64 (g.side * g.side) =>
    ∀ x ∈ v, x < c.modulus) hd hstep).1
  rw [foldl_set_get f] at hrun
  have hproduct := Tile.words_mapEntries (fun i j x => c.mul x (factor i j)) d.tile
  refine (congrArg (· >>= _) hrun).trans ?_
  exact congrArg (fun words => some { d with tile := ⟨words⟩ }) hproduct.symm

/-- Transforming the words at given positions. -/
theorem alongLaneGuarded_eq (ht : t.All (· < c.modulus) h) (place : ℕ → ℕ × ℕ)
    (target : Fin g.side → Fin g.side × Fin g.side)
    (hplace : ∀ i, place i.val = ((target i).1.val, (target i).2.val))
    (hd : d.tile.All (· < c.modulus)) :
    d.alongLaneGuarded c t place = some (d.alongLane c t h target) := by
  have hword : ∀ i, d.tile.get (target i).1 (target i).2 < c.modulus := fun i =>
    hd _ (Vector.getElem_mem _)
  let lane := scatter id (fun i => d.tile.get (target i).1 (target i).2) d.lane
  let lanes := Lanes.cyclicDft c t h { lane, permuted := d.permuted }
  have hlane : ∀ x ∈ lane, x < c.modulus := by
    simp only [lane, Lanes.scatter_id]
    exact forall_mem_ofFn hword
  have hlanes : ∀ i, lanes.lane.get i < c.modulus := fun i =>
    (Lanes.cyclicDftOn_eq (ArithmeticUnit.computes_asserting c) ht ⟨lane, d.permuted⟩ hlane).2 _
      (Vector.getElem_mem i.isLt)
  -- the words are read at their positions, transformed, and written back to where they came from
  have hread : c.copyGuarded g.side (fun i => d.tile.readGuarded (place i).1 (place i).2) some
      d.lane = some lane :=
    Channel.copyGuarded_eq (fun i =>
      (congrArg (fun p => d.tile.readGuarded p.1 p.2) (hplace i)).trans (d.tile.readGuarded_eq _ _))
      (fun _ => rfl) hword d.lane
  have hwrite : c.copyGuarded g.side (fun i => lanes.lane[i]?)
      (fun i => guardedPlace g.side (place i).1 (place i).2) d.tile.words =
        some (scatter (fun i => Tile.index (target i).1 (target i).2) lanes.lane.get
          d.tile.words) :=
    Channel.copyGuarded_eq (fun i => Vector.getElem?_eq_getElem i.isLt) (fun i =>
      (congrArg (fun p => guardedPlace g.side p.1 p.2) (hplace i)).trans (guardedPlace_eq _ _))
      hlanes d.tile.words
  refine (congrArg (· >>= _) hread).trans ?_
  refine (congrArg (· >>= _) (Lanes.cyclicDftGuarded_eq ht hlane)).trans ?_
  exact congrArg (· >>= _) hwrite

/-- Column after column. -/
theorem columnPassesGuarded_eq (ht : t.All (· < c.modulus) h) (hd : d.tile.All (· < c.modulus)) :
    d.columnPassesGuarded c t = some (d.columnPasses c t h) :=
  (foldlM_eq_pure (P := fun d : Datapath g => d.tile.All (· < c.modulus)) hd fun _ column hd =>
    ⟨alongLaneGuarded_eq ht (fun i => (i, (i + column.val) % g.side)) (diagonal column)
      (fun i => by rw [diagonal, Fin.val_add]) hd,
    (alongLaneOn_eq (ArithmeticUnit.computes_asserting c) ht (diagonal column) hd).2⟩).1

/-- Row after row. -/
theorem rowPassesGuarded_eq (ht : t.All (· < c.modulus) h) (hd : d.tile.All (· < c.modulus)) :
    d.rowPassesGuarded c t = some (d.rowPasses c t h) :=
  (foldlM_eq_pure (P := fun d : Datapath g => d.tile.All (· < c.modulus)) hd fun _ row hd =>
    ⟨alongLaneGuarded_eq ht (Prod.mk row.val) (Prod.mk row) (fun _ => rfl) hd,
    (alongLaneOn_eq (ArithmeticUnit.computes_asserting c) ht (Prod.mk row) hd).2⟩).1

/-- The twist reads the factors of the rows. -/
theorem twistGuarded_eq (ht : t.All (· < c.modulus) h) (hd : d.tile.All (· < c.modulus)) :
    d.multiplyGuarded c t (fun row _ => Layout.twistIndex g row) = some (d.twist c t h) :=
  multiplyGuarded_eq (fun row _ => t.get?_index h (.twist row)) (fun row _ => ht (.twist row)) hd

/-- Between the passes the factors of the entries are read. -/
theorem interPassGuarded_eq (ht : t.All (· < c.modulus) h) (hd : d.tile.All (· < c.modulus)) :
    d.multiplyGuarded c t (Layout.passIndex g) = some (d.interPass c t h) :=
  multiplyGuarded_eq (fun row column => t.get?_index h (.pass row column))
    (fun row column => ht (.pass row column)) hd

/-- The forward transform. -/
theorem evaluateGuarded_eq (ht : t.All (· < c.modulus) h) (hd : d.tile.All (· < c.modulus)) :
    d.evaluateGuarded c t = some (d.evaluate c t h) := by
  have hu := ArithmeticUnit.computes_asserting c
  have htwist := (twistOn_eq hu ht hd).2
  have hcolumns := (columnPassesOn_eq hu ht (all_interleave htwist .right)).2
  have hpass := (interPassOn_eq hu ht (all_interleave hcolumns .left)).2
  have hrows := (rowPassesOn_eq hu ht hpass).2
  simp only [evaluateGuarded, twistGuarded_eq ht hd, interleaveGuarded_eq htwist,
    columnPassesGuarded_eq ht (all_interleave htwist .right), interleaveGuarded_eq hcolumns,
    interPassGuarded_eq ht (all_interleave hcolumns .left), rowPassesGuarded_eq ht hpass,
    transposeGuarded_eq hrows, Option.bind_eq_bind, Option.bind_some]
  rfl

/-- The inverse transform. -/
theorem interpolateGuarded_eq (ht : t.All (· < c.modulus) h) (hd : d.tile.All (· < c.modulus)) :
    d.interpolateGuarded c t = some (d.interpolate c t h) := by
  have hu := ArithmeticUnit.computes_asserting c
  have htranspose := all_transpose hd
  have hrows := (rowPassesOn_eq hu ht htranspose).2
  have hpass := (interPassOn_eq hu ht hrows).2
  have hcolumns := (columnPassesOn_eq hu ht (all_interleave hpass .right)).2
  simp only [interpolateGuarded, transposeGuarded_eq hd, rowPassesGuarded_eq ht htranspose,
    interPassGuarded_eq ht hrows, interleaveGuarded_eq hpass,
    columnPassesGuarded_eq ht (all_interleave hpass .right), interleaveGuarded_eq hcolumns,
    twistGuarded_eq ht (all_interleave hcolumns .left), Option.bind_eq_bind, Option.bind_some]
  rfl

/-- **No guard applies.** With reduced factors, a reduced tile is transformed without an index that
is out of range and without a word that is not reduced. -/
theorem transformGuarded_eq (ht : t.All (· < c.modulus) h) (hd : d.tile.All (· < c.modulus)) :
    d.transformGuarded c t = some (d.transform c t h) := by
  rw [transformGuarded, transform]
  cases t.direction with
  | forward => exact evaluateGuarded_eq ht hd
  | inverse => exact interpolateGuarded_eq ht hd

end Datapath

end Runs

end RnsEngine
