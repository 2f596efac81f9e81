import RnsEngine.Prime.Root
import RnsEngine.Prime.Walk
import RnsEngine.Twiddle.Table

/-!
# Bases

A basis is what an engine computes with: a geometry and, for every modulus index, a channel
with its two twiddle tables. There is at least one channel, and every table has the direction
and the size that its place asks for; the types say so.

Bases come from three sources: from channels alone, whose tables are derived from the smallest
root of unity (`Basis.ofChannels`), from channels with tables made elsewhere
(`Basis.ofTables`), and from a size, for which fitting primes are searched (`Basis.generate`).
-/

namespace RnsEngine

/-- A channel with its twiddle tables. -/
structure TabledChannel (g : Geometry) where
  channel : Channel
  forward : Table
  inverse : Table
  forward_fits : forward.Fits g .forward
  inverse_fits : inverse.Fits g .inverse

namespace TabledChannel

variable {g : Geometry}

/-- The table of a direction. -/
def table (e : TabledChannel g) : Direction → Table
  | .forward => e.forward
  | .inverse => e.inverse

/-- Either table has the size and direction of its place. -/
theorem table_fits (e : TabledChannel g) (direction : Direction) :
    (e.table direction).Fits g direction :=
  match direction with
  | .forward => e.forward_fits
  | .inverse => e.inverse_fits

/-- A table that was derived, with the fact that it fits. -/
def derive (g : Geometry) (c : Channel) (psi : UInt64) (direction : Direction) :
    Except Fault { t : Table // t.Fits g direction } :=
  match h : Table.ofRoot g c psi direction with
  | .ok t => .ok ⟨t, Table.fits_of_ofRoot h⟩
  | .error e => .error e

/-- A channel with the tables of the root that its smallest candidate gives. -/
def ofChannel (g : Geometry) (c : Channel) : Except Fault (TabledChannel g) := do
  let psi ← c.primitiveRoot (UInt64.ofNat g.ringDim)
  let forward ← derive g c psi .forward
  let inverse ← derive g c psi .inverse
  return ⟨c, forward.val, inverse.val, forward.property, inverse.property⟩

end TabledChannel

/-- A geometry with channels and their tables, in the order of their indices. -/
structure Basis where
  geometry : Geometry
  entries : Array (TabledChannel geometry)
  entries_pos : 0 < entries.size

namespace Basis

/-- The number of channels. -/
def size (b : Basis) : Nat := b.entries.size

/-- The channels. -/
def channels (b : Basis) : Array Channel := b.entries.map (·.channel)

/-- The moduli. -/
def moduli (b : Basis) : Array UInt64 := b.entries.map (·.channel.modulus)

/-- The tables of a direction. -/
def tables (b : Basis) (direction : Direction) : Array Table :=
  b.entries.map (·.table direction)

/-- There are as many channels as entries. -/
@[simp] theorem size_channels (b : Basis) : b.channels.size = b.size := by
  simp [channels, size]

/-- A basis of given entries, of which there must be one. -/
def ofEntries (g : Geometry) (entries : Array (TabledChannel g)) : Except Fault Basis :=
  if h : 0 < entries.size then .ok ⟨g, entries, h⟩ else .error .noChannels

/-- The basis of given channels, with derived tables. -/
def ofChannels (g : Geometry) (channels : List Channel) : Except Fault Basis := do
  let entries ← channels.mapM (TabledChannel.ofChannel g)
  ofEntries g entries.toArray

/-- The tables of one direction, found to be as many as there are channels and to fit. -/
structure Checked (g : Geometry) (direction : Direction) (count : Nat) where
  tables : Array Table
  size_eq : tables.size = count
  fits : ∀ t ∈ tables, t.Fits g direction

/-- Checks the tables of one direction, their number first. -/
def check (g : Geometry) (direction : Direction) (count : Nat) (tables : Array Table) :
    Except Fault (Checked g direction count) :=
  if hsize : tables.size = count then
    if hfits : ∀ t ∈ tables, t.Fits g direction then .ok ⟨tables, hsize, hfits⟩
    else .error .geometryMismatch
  else .error (.lengthMismatch .tablesPerChannel count tables.size)

/-- Puts the channels and the checked tables of either direction together. -/
def join (g : Geometry) (channels : Array Channel)
    (forward : Checked g .forward channels.size) (inverse : Checked g .inverse channels.size) :
    Array (TabledChannel g) :=
  Array.ofFn fun i : Fin channels.size =>
    have hf : i.val < forward.tables.size := Nat.lt_of_lt_of_eq i.isLt forward.size_eq.symm
    have hi : i.val < inverse.tables.size := Nat.lt_of_lt_of_eq i.isLt inverse.size_eq.symm
    { channel := channels[i]
      forward := forward.tables[i.val]
      inverse := inverse.tables[i.val]
      forward_fits := forward.fits _ (Array.getElem_mem hf)
      inverse_fits := inverse.fits _ (Array.getElem_mem hi) }

/-- There is one entry for each channel. -/
theorem size_join (g : Geometry) (channels : Array Channel)
    (forward : Checked g .forward channels.size) (inverse : Checked g .inverse channels.size) :
    (join g channels forward inverse).size = channels.size := by
  simp [join]

/-- The basis of given channels and tables. -/
def ofTables (g : Geometry) (channels : Array Channel) (forward inverse : Array Table) :
    Except Fault Basis :=
  if h : 0 < channels.size then do
    let forward ← check g .forward channels.size forward
    let inverse ← check g .inverse channels.size inverse
    return ⟨g, join g channels forward inverse, Nat.lt_of_lt_of_eq h (size_join ..).symm⟩
  else .error .noChannels

/-- The basis of the first so many primes around `2 ^ bits` that suit the geometry. -/
def generate (g : Geometry) (bits count : Nat) : Except Fault Basis := do
  let walk ← PrimeWalk.start bits (UInt64.ofNat g.order)
  let primes ← (walk.drawMany count).1
  let channels ← primes.mapM Channel.ofModulus
  ofChannels g channels

end Basis

end RnsEngine
