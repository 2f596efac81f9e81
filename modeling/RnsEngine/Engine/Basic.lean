import RnsEngine.Pointwise
import RnsEngine.Systolic.Grid
import RnsEngine.Transfer
import RnsEngine.Transform.Batch

/-!
# The engine

An engine keeps two banks of tiles and the buffers of its datapath from one operation to the
next, and the basis that was installed last. Its operations stage their operands in the banks,
compute there, and copy the result over the caller's buffer.

An operation is an `Action`: it may fail, but what it has changed in the engine up to then
stays changed. The checks come in a fixed order, all of them before the buffer is written.
-/

namespace RnsEngine

/-- The banks, the buffers of the datapath, and the installed basis, which has the geometry of
the engine. -/
structure Engine (g : Geometry) where
  left : Bank g
  right : Bank g
  scratch : Scratch g
  installed : Option { b : Basis // b.geometry = g }

/-- An engine at rest, without a basis. -/
def Engine.blank (g : Geometry) : Engine g :=
  { left := Bank.zero g, right := Bank.zero g, scratch := Scratch.blank g, installed := none }

/-- An engine together with the buffer of the caller that an operation writes to. -/
structure Session (g : Geometry) where
  engine : Engine g
  buffer : Array UInt64

/-- What an operation does to a session; changes made before a failure persist. -/
abbrev Action (g : Geometry) := ExceptT Fault (StateM (Session g))

namespace Engine

variable {g : Geometry}

/-- A check or computation that leaves the session alone. -/
def settle {α : Type} (r : Except Fault α) : Action g α := fun s => (r, s)

/-- Stages the leading channels of a buffer in the left bank. -/
def loadLeft (source : Array UInt64) (count : Nat) : Action g Unit := do
  let bank ← settle (Transfer.load source (← get).engine.left count)
  modify fun s => { s with engine := { s.engine with left := bank } }

/-- Stages the leading channels of a buffer in the right bank. -/
def loadRight (source : Array UInt64) (count : Nat) : Action g Unit := do
  let bank ← settle (Transfer.load source (← get).engine.right count)
  modify fun s => { s with engine := { s.engine with right := bank } }

/-- Copies the leading tiles of the left bank over the buffer. -/
def storeLeft (count : Nat) : Action g Unit := do
  let s ← get
  let buffer ← settle (Transfer.store s.engine.left s.buffer count)
  modify fun s => { s with buffer }

/-- The installed basis. -/
def basis : Action g { b : Basis // b.geometry = g } := do
  match (← get).engine.installed with
  | some b => return b
  | none => throw .notInitialized

/-- The first word of an active tile that is not reduced, tile after tile. -/
def firstUnreduced? (b : Basis) (span : Span g.capacity b.size) (bank : Bank g) :
    Option Fault :=
  (List.finRange span.count).findSome? fun l : Fin span.count =>
    let q := (Workspace.entryAt b span l).channel.modulus
    ((bank.get (span.tile l)).firstUnreduced? q).map fun x => .operandOutOfRange .residue x q

/-- Every word of an active tile must be reduced modulo the modulus of the tile. -/
def checkReduced (b : Basis) (span : Span g.capacity b.size) (bank : Bank g) :
    Except Fault Unit :=
  match firstUnreduced? b span bank with
  | some fault => .error fault
  | none => .ok ()

/-- The buffer must have room for the active tiles. -/
def checkRoom (count size : Nat) : Except Fault Unit :=
  if size < g.words count then .error (.bufferTooShort .transferTarget (g.words count) size)
  else .ok ()

/-! ### Operations -/

/-- Installs a basis that was made for the geometry of the engine. -/
def install (b : Basis) : Action g Unit :=
  if h : b.geometry = g then
    modify fun s => { s with engine := { s.engine with installed := some ⟨b, h⟩ } }
  else throw .geometryMismatch

/-- Combines two operands entry by entry. -/
def combine (op : PointwiseOp) (left right : Array UInt64) (window : Window) :
    Action g Unit := do
  let b ← basis
  let span ← settle (window.validate g.capacity b.val.size)
  loadLeft left window.count
  loadRight right window.count
  settle (checkReduced b.val span (← get).engine.left)
  settle (checkReduced b.val span (← get).engine.right)
  settle (checkRoom (g := g) window.count (← get).buffer.size)
  let e := (← get).engine
  let result ← settle (Pointwise.assign op e.left e.right b.val.channels window)
  modify fun s => { s with engine := { s.engine with left := result } }
  storeLeft window.count

/-- Transforms the buffer in place. -/
def transform (direction : Direction) (window : Window) : Action g Unit := do
  let b ← basis
  let span ← settle (window.validate g.capacity b.val.size)
  loadLeft (← get).buffer window.count
  settle (checkReduced b.val span (← get).engine.left)
  let e := (← get).engine
  let result ← settle
    (Workspace.transform b.val direction window { bank := e.left, scratch := e.scratch })
  modify fun s =>
    { s with engine := { s.engine with left := result.bank, scratch := result.scratch } }
  storeLeft window.count

/-- Multiplies a stream of rows by a matrix; the number of cycles that it took. No basis is
needed. -/
def convert (shape : Shape) (input weights moduli : Array UInt64) : Action g Nat := do
  let product ← settle (Grid.multiply shape input weights moduli (← get).buffer)
  modify fun s => { s with buffer := product.output }
  return product.cycles

end Engine

end RnsEngine
