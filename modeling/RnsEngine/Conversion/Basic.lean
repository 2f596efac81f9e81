import RnsEngine.Conversion.ModInverse
import RnsEngine.Systolic.Grid

/-!
# Converting between bases of residues

A number below the product `Q` of the source moduli is given by its residues. Its residues
modulo the target moduli are those of `∑ i, y i * (Q / q i)`, up to a small multiple of `Q`,
where `y i` is the residue times the inverse of `Q / q i` modulo `q i`. The inverses and the
weights `Q / q i` modulo each target are fixed by the two bases; a conversion scales its input
(`prescale`) and sends it through the grid (`convert`).
-/

namespace RnsEngine

/-- A source and a target basis, with the inverses of the source's cofactors. -/
structure BaseConversion where
  source : Array Channel
  target : Array Channel
  source_pos : 0 < source.size
  inverses : Vector UInt64 source.size

namespace BaseConversion

/-- The product of moduli. -/
def product (channels : Array Channel) : Nat :=
  channels.foldl (fun acc c => acc * c.modulus.toNat) 1

/-- The product of all moduli but one. -/
def cofactor (channels : Array Channel) (c : Channel) : Nat :=
  product channels / c.modulus.toNat

/-- The inverse of a cofactor modulo the modulus that it leaves out. -/
def cofactorInverse (channels : Array Channel) (c : Channel) : Except Fault UInt64 :=
  let rest := cofactor channels c % c.modulus.toNat
  match modInverse? rest c.modulus.toNat with
  | some x => .ok (UInt64.ofNat x)
  | none => .error (.notInvertible (UInt64.ofNat rest) c.modulus)

/-- The conversion between bases with given moduli; the source moduli must have no common
factors. -/
def ofModuli (source target : List UInt64) : Except Fault BaseConversion := do
  let source := (← source.mapM Channel.ofModulus).toArray
  let target := (← target.mapM Channel.ofModulus).toArray
  let shape ← Shape.ofDims 1 source.size target.size
  if hsize : shape.inputs = source.size then
    let inverses ← source.toVector.mapM (cofactorInverse source)
    return { source, target, source_pos := hsize ▸ shape.inputs_pos, inverses }
  else throw .noChannels

variable (b : BaseConversion)

/-- The number of source moduli. -/
def inputs : Nat := b.source.size

/-- The number of target moduli. -/
def outputs : Nat := b.target.size

/-- The product of the source moduli. -/
def modulus : Nat := product b.source

/-- The target moduli. -/
def targetModuli : Array UInt64 := b.target.map (·.modulus)

/-- The cofactors of the source modulo the target, row after row. -/
def weights : Array UInt64 :=
  b.source.flatMap fun c => b.target.map fun p =>
    UInt64.ofNat (cofactor b.source c % p.modulus.toNat)

/-- The column of a word in a matrix of source residues. -/
def columnOf (k : Nat) : Fin b.source.size := ⟨k % b.source.size, Nat.mod_lt _ b.source_pos⟩

/-- The fault of a word that is not reduced in its column. -/
def unreduced? (k : Nat) (x : UInt64) : Option Fault :=
  let c := b.source[b.columnOf k]
  if c.modulus ≤ x then some (.operandOutOfRange .conversionResidues x c.modulus) else none

/-- The fault of the first word that is not reduced. -/
def firstUnreduced? (xs : Array UInt64) : Option Fault :=
  xs.toList.zipIdx.findSome? fun (x, k) => b.unreduced? k x

/-- Multiplies every residue by the inverse of the cofactor of its column. The input is a matrix
with one column for each source modulus; nothing changes unless all words are reduced. -/
def prescale (xs : Array UInt64) : Except Fault (Array UInt64) :=
  if xs.size % b.inputs ≠ 0 then
    .error (.lengthMismatch .conversionResidues ((xs.size / b.inputs + 1) * b.inputs) xs.size)
  else
    match b.firstUnreduced? xs with
    | some fault => .error fault
    | none => .ok <| xs.mapIdx fun k x =>
        (b.source[b.columnOf k]).mul x b.inverses[b.columnOf k]

/-- Converts a matrix of source residues into one of target residues, over the given output. -/
def convert (xs output : Array UInt64) : Except Fault Product := do
  let scaled ← b.prescale xs
  let shape ← Shape.ofDims (scaled.size / b.inputs) b.inputs b.outputs
  Grid.multiply shape scaled b.weights b.targetModuli output

end BaseConversion

end RnsEngine
