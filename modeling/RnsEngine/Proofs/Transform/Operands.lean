import Mathlib.Data.Fin.Basic
import RnsEngine.Proofs.Channel.Unit
import RnsEngine.Proofs.Transform.Batch

/-!
# The operands of the datapath

The datapath takes sums, differences and products of words, and the operations of a channel are
exact only on reduced ones. Here the datapath is run on an arithmetic unit of any kind
(`ArithmeticUnit`), through which all arithmetic goes. On the plain unit of a channel the run is the
transform (`Workspace.transformOn_plain`); on the asserting unit a run that does not give up has met
no operand that is not reduced.

On any unit that computes in the channel on good operands, a run from good words with good factors
is the transform (`Workspace.transformOn_eq`), by one lemma for each part of the datapath.
-/

namespace RnsEngine

universe u

/-! ### Loops of programs -/

/-- A loop whose steps are results, as long as a property holds that they keep, has a result with
this property. -/
theorem foldlM_eq_pure {m : Type → Type u} [Monad m] [LawfulMonad m] {σ : Type} {P : σ → Prop}
    {n : ℕ} {f : σ → Fin n → m σ} {g : σ → Fin n → σ} {s : σ} (hs : P s)
    (hstep : ∀ s i, P s → f s i = pure (g s i) ∧ P (g s i)) :
    Fin.foldlM n f s = pure (Fin.foldl n g s) ∧ P (Fin.foldl n g s) := by
  induction n with
  | zero => exact ⟨by rw [Fin.foldlM_zero, Fin.foldl_zero], by rwa [Fin.foldl_zero]⟩
  | succ n ih =>
    obtain ⟨hrun, hP⟩ := ih (f := fun s i => f s i.castSucc) (g := fun s i => g s i.castSucc)
      fun s i => hstep s i.castSucc
    obtain ⟨hlast, hP'⟩ := hstep _ (Fin.last n) hP
    refine ⟨?_, Fin.foldl_succ_last g s ▸ hP'⟩
    rw [Fin.foldlM_succ_last, Fin.foldl_succ_last]
    exact (congrArg (· >>= _) hrun).trans ((pure_bind _ _).trans hlast)

section Vectors

variable {α : Type u} {n : ℕ} {P : α → Prop}

/-- What holds of all words of a vector and of a new one holds after it has been written. -/
theorem forall_mem_set {v : Vector α n} (hv : ∀ x ∈ v, P x) {k : ℕ} (hk : k < n) {y : α}
    (hy : P y) : ∀ x ∈ v.set k y hk, P x := by
  intro x hx
  rcases Vector.mem_or_eq_of_mem_set hx with hx | rfl
  · exact hv x hx
  · exact hy

/-- What holds of all words of a vector and of all values holds after they have been scattered. -/
theorem forall_mem_scatter {v : Vector α n} (hv : ∀ x ∈ v, P x) {m : ℕ} (dest : Fin m → Fin n)
    {value : Fin m → α} (hvalue : ∀ i, P (value i)) : ∀ x ∈ scatter dest value v, P x :=
  foldl_carries (fun _ (w : Vector α n) => ∀ x ∈ w, P x)
    (fun w i => w.set (dest i).val (value i) (dest i).isLt) hv fun i _ hw =>
      forall_mem_set hw (dest i).isLt (hvalue i)

/-- What holds of all values of a function holds of all words of its vector. -/
theorem forall_mem_ofFn {value : Fin n → α} (hvalue : ∀ i, P (value i)) :
    ∀ x ∈ Vector.ofFn value, P x := by
  intro x hx
  obtain ⟨i, rfl⟩ := Vector.mem_ofFn.1 hx
  exact hvalue i

end Vectors

/-- The words of a changed tile, place by place. -/
theorem Tile.words_mapEntries {side : ℕ} (f : Fin side → Fin side → UInt64 → UInt64)
    (t : Tile side) :
    (t.mapEntries f).words = Vector.ofFn fun k => f (row k) (column k) (t.words.get k) :=
  Vector.ext fun k hk => by
    rw [mapEntries, Vector.getElem_mapFinIdx, Vector.getElem_ofFn]
    rfl

/-! ### Butterflies -/

namespace ArithmeticUnit

variable {m : Type → Type u} [Monad m]

/-- Sum and difference of one word and the multiple of another. -/
def butterfly (unit : ArithmeticUnit m) (x y factor : UInt64) : m (UInt64 × UInt64) := do
  let t ← unit.mul y factor
  let sum ← unit.add x t
  let difference ← unit.sub x t
  return (sum, difference)

/-- A butterfly of good words has good results. -/
theorem Computes.butterfly [LawfulMonad m] {unit : ArithmeticUnit m} {c : Channel}
    {Good : UInt64 → Prop} (hu : unit.Computes c Good) {x y factor : UInt64} (hx : Good x)
    (hy : Good y) (hfactor : Good factor) :
    unit.butterfly x y factor = pure (c.butterfly x y factor) ∧
      Good (c.butterfly x y factor).1 ∧ Good (c.butterfly x y factor).2 := by
  obtain ⟨hmul, ht⟩ := hu.mul hy hfactor
  obtain ⟨hadd, hsum⟩ := hu.add hx ht
  obtain ⟨hsub, hdifference⟩ := hu.sub hx ht
  refine ⟨?_, hsum, hdifference⟩
  rw [ArithmeticUnit.butterfly, hmul, pure_bind, hadd, pure_bind, hsub, pure_bind]
  rfl

end ArithmeticUnit

/-! ### Lanes -/

namespace Lanes

variable {m : Type → Type u} [Monad m] {g : Geometry} (unit : ArithmeticUnit m) (t : Table)
  (h : t.Covers g)

/-- Applies a butterfly of a stage to a buffer. -/
def combineOn (s : Fin g.logSide) (v : Vector UInt64 g.side) (b : Fin g.half) :
    m (Vector UInt64 g.side) := do
  have hp : Butterfly.first s b < g.side := Butterfly.first_lt s b
  have hr : Butterfly.second s b < g.side := Butterfly.second_lt s b
  let (low, high) ←
    unit.butterfly v[Butterfly.first s b] v[Butterfly.second s b] (t.read h (.stage s b))
  return (v.set (Butterfly.first s b) low).set (Butterfly.second s b) high

/-- Applies all butterflies of a stage. -/
def stageOn (v : Vector UInt64 g.side) (s : Fin g.logSide) : m (Vector UInt64 g.side) :=
  Fin.foldlM g.half (combineOn unit t h s) v

/-- The cyclic transform of the lane. -/
def cyclicDftOn (l : Lanes g) : m (Lanes g) := do
  let permuted := scatter id (fun i => l.lane.get (bitReversed g i)) l.permuted
  let permuted ← Fin.foldlM g.logSide (stageOn unit t h) permuted
  return { lane := permuted, permuted }

end Lanes

/-! ### Tiles -/

namespace Datapath

variable {m : Type → Type u} [Monad m] {g : Geometry} (unit : ArithmeticUnit m) (t : Table)
  (h : t.Covers g)

/-- Multiplies every entry by a factor for its position. -/
def multiplyOn (factor : Fin g.side → Fin g.side → UInt64) (d : Datapath g) : m (Datapath g) := do
  let words ← Vector.ofFnM fun k : Fin (g.side * g.side) =>
    unit.mul d.tile.words[k] (factor (Tile.row k) (Tile.column k))
  return { d with tile := ⟨words⟩ }

/-- Multiplies every row by its twist factor. -/
def twistOn (d : Datapath g) : m (Datapath g) :=
  d.multiplyOn unit fun row _ => t.read h (.twist row)

/-- Multiplies every entry by its factor between the passes. -/
def interPassOn (d : Datapath g) : m (Datapath g) :=
  d.multiplyOn unit fun row column => t.read h (.pass row column)

/-- Transforms the words at given positions of the tile. -/
def alongLaneOn (place : Fin g.side → Fin g.side × Fin g.side) (d : Datapath g) :
    m (Datapath g) := do
  let lane := scatter id (fun i => d.tile.get (place i).1 (place i).2) d.lane
  let lanes ← Lanes.cyclicDftOn unit t h { lane, permuted := d.permuted }
  let target := fun i => Tile.index (place i).1 (place i).2
  return { d with toLanes := lanes, tile := ⟨scatter target lanes.lane.get d.tile.words⟩ }

/-- Transforms every column of a tile whose rows are rotated to the right. -/
def columnPassesOn (d : Datapath g) : m (Datapath g) :=
  Fin.foldlM g.side (fun d column => d.alongLaneOn unit t h (diagonal column)) d

/-- Transforms every row. -/
def rowPassesOn (d : Datapath g) : m (Datapath g) :=
  Fin.foldlM g.side (fun d row => d.alongLaneOn unit t h (Prod.mk row)) d

/-- The forward transform. -/
def evaluateOn (d : Datapath g) : m (Datapath g) := do
  let d ← d.twistOn unit t h
  let d := d.permute (Staged.interleave .right)
  let d ← d.columnPassesOn unit t h
  let d := d.permute (Staged.interleave .left)
  let d ← d.interPassOn unit t h
  let d ← d.rowPassesOn unit t h
  return d.permute Staged.transpose

/-- The inverse transform. -/
def interpolateOn (d : Datapath g) : m (Datapath g) := do
  let d := d.permute Staged.transpose
  let d ← d.rowPassesOn unit t h
  let d ← d.interPassOn unit t h
  let d := d.permute (Staged.interleave .right)
  let d ← d.columnPassesOn unit t h
  let d := d.permute (Staged.interleave .left)
  d.twistOn unit t h

/-- The transform in the direction of the table. -/
def transformOn (d : Datapath g) : m (Datapath g) :=
  match t.direction with
  | .forward => d.evaluateOn unit t h
  | .inverse => d.interpolateOn unit t h

end Datapath

/-! ### Banks -/

namespace Workspace

variable {m : Type → Type u} [Monad m] {g : Geometry}

/-- A bank with another tile in a place. -/
def replaceTile {side capacity : ℕ} (tiles : Vector (Tile side) capacity) (l : Fin capacity)
    (t : Tile side) : Vector (Tile side) capacity := tiles.set l.val t l.isLt

/-- Transforms one tile in place. -/
def transformTileOn (unit : ArithmeticUnit m) (t : Table) (h : t.Covers g) (w : Workspace g)
    (l : Fin g.capacity) : m (Workspace g) := do
  let d ← Datapath.transformOn unit t h { w.scratch with tile := w.bank.get l }
  return { bank := replaceTile w.bank l d.tile, scratch := d.toScratch }

/-- Transforms the tiles of an admissible window, each on the unit of its channel. -/
def transformSpanOn (unit : Channel → ArithmeticUnit m) (b : Basis) (hb : b.geometry = g)
    (direction : Direction) (span : Span g.capacity b.size) (w : Workspace g) : m (Workspace g) :=
  Fin.foldlM span.count (fun w l =>
    let e := entryAt b span l
    transformTileOn (unit e.channel) (e.table direction) (covers_of_geometry_eq hb e direction) w
      (span.tile l)) w

/-- Transforms the tiles of a window. -/
def transformOn (unit : Channel → ArithmeticUnit m) (b : Basis) (direction : Direction)
    (window : Window) (w : Workspace g) : m (Except Fault (Workspace g)) :=
  if hb : b.geometry = g then
    match window.validate g.capacity b.size with
    | .ok span => .ok <$> transformSpanOn unit b hb direction span w
    | .error fault => return .error fault
  else return .error .geometryMismatch

end Workspace

/-! ### Runs from good words -/

section Runs

variable {m : Type → Type u} [Monad m] [LawfulMonad m] {g : Geometry} {unit : ArithmeticUnit m}
  {c : Channel} {Good : UInt64 → Prop} {t : Table} {h : t.Covers g}

/-- All words of a tile are good. -/
def Tile.All (Good : UInt64 → Prop) {side : ℕ} (t : Tile side) : Prop := ∀ x ∈ t.words, Good x

/-- All factors that the transform reads in a table are good. -/
def Table.All (Good : UInt64 → Prop) (t : Table) (h : t.Covers g) : Prop :=
  ∀ slot : Slot g, Good (t.read h slot)

/-- A butterfly keeps a lane good. -/
theorem Lanes.combineOn_eq (hu : unit.Computes c Good) (ht : t.All Good h) (s : Fin g.logSide)
    (v : Vector UInt64 g.side) (b : Fin g.half) (hv : ∀ x ∈ v, Good x) :
    combineOn unit t h s v b = pure (combine c t h s v b) ∧
      ∀ x ∈ combine c t h s v b, Good x := by
  have hfirst := Butterfly.first_lt s b
  have hsecond := Butterfly.second_lt s b
  obtain ⟨hrun, hlow, hhigh⟩ := hu.butterfly (hv _ (Vector.getElem_mem hfirst))
    (hv _ (Vector.getElem_mem hsecond)) (ht (.stage s b))
  refine ⟨?_, forall_mem_set (forall_mem_set hv hfirst hlow) hsecond hhigh⟩
  rw [combineOn, hrun, pure_bind]
  rfl

/-- A lane of good words is transformed, and its words are good again. -/
theorem Lanes.cyclicDftOn_eq (hu : unit.Computes c Good) (ht : t.All Good h) (l : Lanes g)
    (hl : ∀ x ∈ l.lane, Good x) :
    cyclicDftOn unit t h l = pure (cyclicDft c t h l) ∧
      ∀ x ∈ (cyclicDft c t h l).lane, Good x := by
  have hstart : ∀ x ∈ scatter id (fun i => l.lane.get (bitReversed g i)) l.permuted, Good x := by
    rw [scatter_id]
    exact forall_mem_ofFn fun i => hl _ (Vector.getElem_mem _)
  have hstage : ∀ v s, (∀ x ∈ v, Good x) →
      stageOn unit t h v s = pure (stage c t h v s) ∧ ∀ x ∈ stage c t h v s, Good x :=
    fun v s hv => foldlM_eq_pure hv fun v b => combineOn_eq hu ht s v b
  obtain ⟨hrun, hgood⟩ := foldlM_eq_pure hstart hstage
  exact ⟨by rw [cyclicDftOn, hrun, pure_bind]; rfl, hgood⟩

/-- A lane of reduced words and a table of reduced factors have a reduced spectrum. -/
theorem Lanes.spectrum_lt (ht : ∀ slot, t.read h slot < c.modulus) {f : Fin g.side → UInt64}
    (hf : ∀ n, f n < c.modulus) (k : Fin g.side) :
    (spectrum c t h (Vector.ofFn f)).get k < c.modulus := by
  have hrun := cyclicDftOn_eq (ArithmeticUnit.computes_asserting c) ht
    ⟨Vector.ofFn f, Vector.ofFn f⟩ (forall_mem_ofFn hf)
  rw [lane_cyclicDft] at hrun
  exact hrun.2 _ (Vector.getElem_mem k.isLt)

/-- A pass of the permutation network keeps a tile good. -/
theorem Staged.all_pass {side : ℕ} {s : Staged side} (hs : s.tile.All Good)
    (dest : Fin side → Fin side → Fin side × Fin side) : (s.pass dest).tile.All Good := by
  simp only [Tile.All, pass]
  refine forall_mem_scatter hs _ fun k => ?_
  exact hs _ (Vector.getElem_mem k.isLt)

namespace Datapath

variable {d : Datapath g}

/-- Rotating the rows keeps a tile good. -/
theorem all_interleave (hd : d.tile.All Good) (shift : Shift) :
    (d.permute (Staged.interleave shift)).tile.All Good :=
  Staged.all_pass (s := ⟨d.tile, d.staging⟩) hd fun i j => (i, Staged.rotated shift i j)

/-- Transposing keeps a tile good. -/
theorem all_transpose (hd : d.tile.All Good) : (d.permute Staged.transpose).tile.All Good := by
  have hright := Staged.all_pass (s := ⟨d.tile, d.staging⟩) hd fun i j =>
    (i, Staged.rotated .right i j)
  have hreflect := Staged.all_pass hright fun r c => (c - r, c)
  exact Staged.all_pass hreflect fun i j => (i, Staged.rotated .left i j)

/-- A tile of good words is multiplied by good factors. -/
theorem multiplyOn_eq (hu : unit.Computes c Good) {factor : Fin g.side → Fin g.side → UInt64}
    (hfactor : ∀ i j, Good (factor i j)) (hd : d.tile.All Good) :
    let product := { d with tile := d.tile.mapEntries fun i j x => c.mul x (factor i j) }
    d.multiplyOn unit factor = pure product ∧ product.tile.All Good := by
  have hword : ∀ k : Fin (g.side * g.side), Good d.tile.words[k] := fun k =>
    hd _ (Vector.getElem_mem k.isLt)
  have hrun : (fun k : Fin (g.side * g.side) =>
      unit.mul d.tile.words[k] (factor (Tile.row k) (Tile.column k))) = fun k =>
        pure (c.mul d.tile.words[k] (factor (Tile.row k) (Tile.column k))) :=
    funext fun k => (hu.mul (hword k) (hfactor _ _)).1
  have hproduct : (d.tile.mapEntries fun i j x => c.mul x (factor i j)).words =
      Vector.ofFn fun k => c.mul d.tile.words[k] (factor (Tile.row k) (Tile.column k)) :=
    Tile.words_mapEntries _ _
  refine ⟨?_, ?_⟩
  · rw [multiplyOn, hrun, Vector.ofFnM_pure, pure_bind, ← hproduct]
  · rw [Tile.All, hproduct]
    exact forall_mem_ofFn fun k => (hu.mul (hword k) (hfactor _ _)).2

/-- The words at given positions are transformed. -/
theorem alongLaneOn_eq (hu : unit.Computes c Good) (ht : t.All Good h)
    (place : Fin g.side → Fin g.side × Fin g.side) (hd : d.tile.All Good) :
    d.alongLaneOn unit t h place = pure (d.alongLane c t h place) ∧
      (d.alongLane c t h place).tile.All Good := by
  let lane := scatter id (fun i => d.tile.get (place i).1 (place i).2) d.lane
  have hlane : ∀ x ∈ lane, Good x := by
    simp only [lane, Lanes.scatter_id]
    exact forall_mem_ofFn fun i => hd _ (Vector.getElem_mem _)
  obtain ⟨hrun, hgood⟩ := Lanes.cyclicDftOn_eq hu ht ⟨lane, d.permuted⟩ hlane
  constructor
  · rw [alongLaneOn, hrun, pure_bind]
    rfl
  · simp only [Tile.All, alongLane]
    refine forall_mem_scatter hd _ fun i => ?_
    exact hgood _ (Vector.getElem_mem i.isLt)

/-- The twist is a product with good factors. -/
theorem twistOn_eq (hu : unit.Computes c Good) (ht : t.All Good h) (hd : d.tile.All Good) :
    d.twistOn unit t h = pure (d.twist c t h) ∧ (d.twist c t h).tile.All Good :=
  multiplyOn_eq hu (fun row _ => ht (.twist row)) hd

/-- So are the factors between the passes. -/
theorem interPassOn_eq (hu : unit.Computes c Good) (ht : t.All Good h) (hd : d.tile.All Good) :
    d.interPassOn unit t h = pure (d.interPass c t h) ∧ (d.interPass c t h).tile.All Good :=
  multiplyOn_eq hu (fun row column => ht (.pass row column)) hd

/-- Column after column is transformed. -/
theorem columnPassesOn_eq (hu : unit.Computes c Good) (ht : t.All Good h) (hd : d.tile.All Good) :
    d.columnPassesOn unit t h = pure (d.columnPasses c t h) ∧
      (d.columnPasses c t h).tile.All Good :=
  foldlM_eq_pure (P := fun d : Datapath g => d.tile.All Good) hd fun _ column hd =>
    alongLaneOn_eq hu ht (diagonal column) hd

/-- Row after row is transformed. -/
theorem rowPassesOn_eq (hu : unit.Computes c Good) (ht : t.All Good h) (hd : d.tile.All Good) :
    d.rowPassesOn unit t h = pure (d.rowPasses c t h) ∧ (d.rowPasses c t h).tile.All Good :=
  foldlM_eq_pure (P := fun d : Datapath g => d.tile.All Good) hd fun _ row hd =>
    alongLaneOn_eq hu ht (Prod.mk row) hd

/-- The forward transform. -/
theorem evaluateOn_eq (hu : unit.Computes c Good) (ht : t.All Good h) (hd : d.tile.All Good) :
    d.evaluateOn unit t h = pure (d.evaluate c t h) ∧ (d.evaluate c t h).tile.All Good := by
  obtain ⟨htwist, hd⟩ := twistOn_eq hu ht hd
  obtain ⟨hcolumns, hd⟩ := columnPassesOn_eq hu ht (all_interleave hd .right)
  obtain ⟨hpass, hd⟩ := interPassOn_eq hu ht (all_interleave hd .left)
  obtain ⟨hrows, hd⟩ := rowPassesOn_eq hu ht hd
  refine ⟨?_, all_transpose hd⟩
  simp only [evaluateOn, htwist, hcolumns, hpass, hrows, pure_bind]
  rfl

/-- The inverse transform. -/
theorem interpolateOn_eq (hu : unit.Computes c Good) (ht : t.All Good h) (hd : d.tile.All Good) :
    d.interpolateOn unit t h = pure (d.interpolate c t h) ∧
      (d.interpolate c t h).tile.All Good := by
  obtain ⟨hrows, hd⟩ := rowPassesOn_eq hu ht (all_transpose hd)
  obtain ⟨hpass, hd⟩ := interPassOn_eq hu ht hd
  obtain ⟨hcolumns, hd⟩ := columnPassesOn_eq hu ht (all_interleave hd .right)
  obtain ⟨htwist, hd⟩ := twistOn_eq hu ht (all_interleave hd .left)
  refine ⟨?_, hd⟩
  simp only [interpolateOn, hrows, hpass, hcolumns, htwist, pure_bind]
  rfl

/-- **One tile.** From a tile of good words and a table of good factors the run on a unit is the
transform, and the words are good again. -/
theorem transformOn_eq (hu : unit.Computes c Good) (ht : t.All Good h) (hd : d.tile.All Good) :
    d.transformOn unit t h = pure (d.transform c t h) ∧ (d.transform c t h).tile.All Good := by
  rw [transformOn, transform]
  cases t.direction with
  | forward => exact evaluateOn_eq hu ht hd
  | inverse => exact interpolateOn_eq hu ht hd

end Datapath

end Runs

/-! ### Windows -/

namespace Workspace

section Windows

variable {m : Type → Type u} [Monad m] [LawfulMonad m] {b : Basis}
  {unit : Channel → ArithmeticUnit m} {Good : Channel → UInt64 → Prop}
  {span : Span b.geometry.capacity b.size}

/-- The words of every active tile are good for its channel. -/
def All (Good : Channel → UInt64 → Prop) (b : Basis) (span : Span b.geometry.capacity b.size)
    (w : Workspace b.geometry) : Prop :=
  ∀ l : Fin span.count, (w.bank.get (span.tile l)).All (Good (entryAt b span l).channel)

/-- A tile of good words is transformed, and the words of all active tiles stay good. -/
theorem transformTileOn_eq (hu : ∀ c, (unit c).Computes c (Good c)) {w : Workspace b.geometry}
    (l : Fin span.count) (hw : w.All Good b span) {t : Table} {h : t.Covers b.geometry}
    (ht : t.All (Good (entryAt b span l).channel) h) :
    let done := w.transformTile (entryAt b span l).channel t h (span.tile l)
    w.transformTileOn (unit (entryAt b span l).channel) t h (span.tile l) = pure done ∧
      done.All Good b span := by
  intro done
  obtain ⟨hrun, hgood⟩ := Datapath.transformOn_eq (hu _) ht
    (d := { w.scratch with tile := w.bank.get (span.tile l) }) (hw l)
  refine ⟨by rw [transformTileOn, hrun, pure_bind]; rfl, fun l' => ?_⟩
  by_cases hl : l = l'
  · subst hl
    have htile : done.bank.get (span.tile l) = _ := Vector.getElem_set_self (span.tile l).isLt
    rw [htile]
    exact hgood
  · have hne : (span.tile l).val ≠ (span.tile l').val := fun hval => hl (Fin.ext hval)
    have htile : done.bank.get (span.tile l') = w.bank.get (span.tile l') :=
      Vector.getElem_set_ne (span.tile l).isLt (span.tile l').isLt hne
    rw [htile]
    exact hw l'

/-- **A window.** From good words in the active tiles and tables of good factors, the run of a
window on units of the channels is the transform of the window. -/
theorem transformOn_eq (hu : ∀ c, (unit c).Computes c (Good c)) {direction : Direction}
    (ht : ∀ e ∈ b.entries, (e.table direction).All (Good e.channel)
      (e.table_fits direction).covers) {window : Window} {w : Workspace b.geometry}
    (hw : ∀ span, window.validate b.geometry.capacity b.size = .ok span → w.All Good b span) :
    transformOn unit b direction window w = pure (transform b direction window w) := by
  rw [transformOn, transform, dif_pos rfl, dif_pos rfl]
  cases hspan : window.validate b.geometry.capacity b.size with
  | error fault => rfl
  | ok span =>
    obtain ⟨hrun, -⟩ := foldlM_eq_pure (hw span hspan) fun w l hw =>
      transformTileOn_eq hu l hw (ht _ (Array.getElem_mem (span.index_lt l.isLt)))
    exact (congrArg (Except.ok <$> ·) hrun).trans (map_pure _ _)

end Windows

/-- On the plain units of the channels the run of a window is its transform. -/
theorem transformOn_plain (b : Basis) (direction : Direction) (window : Window)
    (w : Workspace b.geometry) :
    transformOn Channel.plain b direction window w = pure (transform b direction window w) :=
  transformOn_eq ArithmeticUnit.computes_plain (fun _ _ _ => trivial) fun _ _ _ _ _ => trivial

end Workspace

end RnsEngine
