import RnsEngine.Basis
import RnsEngine.Transform.FourStep
import RnsEngine.Window

/-!
# Transforming the tiles of a window

Tile `l` of a window is transformed with the channel and the table at index `offset + l` of the
basis. The basis must have been made for the geometry of the bank, and the window must be
admissible; both are checked before the first tile is touched, and nothing fails after that.
-/

namespace RnsEngine

/-- A bank, with the buffers that its tiles are transformed with. -/
structure Workspace (g : Geometry) where
  bank : Bank g
  scratch : Scratch g
deriving DecidableEq

namespace Workspace

variable {g : Geometry}

/-- Transforms one tile in place. -/
def transformTile (c : Channel) (t : Table) (h : t.Covers g) (w : Workspace g)
    (l : Fin g.capacity) : Workspace g :=
  let d := Datapath.transform c t h { w.scratch with tile := w.bank[l] }
  { bank := w.bank.set l.val d.tile l.isLt, scratch := d.toScratch }

/-- The table of a basis for the geometry of the bank reaches over its layout. -/
theorem covers_of_geometry_eq {b : Basis} (h : b.geometry = g)
    (e : TabledChannel b.geometry) (direction : Direction) :
    (e.table direction).Covers g :=
  h ▸ (e.table_fits direction).covers

/-- The channel and the tables of an active tile. -/
def entryAt {capacity : Nat} (b : Basis) (span : Span capacity b.size) (l : Fin span.count) :
    TabledChannel b.geometry :=
  getElem b.entries (span.start + l.val) (span.index_lt l.isLt)

/-- Transforms the tiles of an admissible window, one after the other. -/
def transformSpan (b : Basis) (hb : b.geometry = g) (direction : Direction)
    (span : Span g.capacity b.size) (w : Workspace g) : Workspace g :=
  Fin.foldl span.count (fun w l =>
    let e := entryAt b span l
    transformTile e.channel (e.table direction) (covers_of_geometry_eq hb e direction) w
      (span.tile l)) w

/-- Transforms the tiles of a window. -/
def transform (b : Basis) (direction : Direction) (window : Window) (w : Workspace g) :
    Except Fault (Workspace g) :=
  if hb : b.geometry = g then do
    let span ← window.validate g.capacity b.size
    return transformSpan b hb direction span w
  else .error .geometryMismatch

end Workspace

end RnsEngine
