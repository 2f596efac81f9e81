/-!
# Causes of refusal

Every check of the library that can refuse its input names the cause as a value of `Fault`,
together with the numbers that were compared. `Fault.message` is the only place where a cause
becomes text, so the wording of a refusal never decides anything.

A buffer or a list that takes part in a check is named by a `Role`; two checks that differ
only in the operand they look at share a cause and differ in the role.
-/

namespace RnsEngine

/-- The operand that a length check or a range check was looking at. -/
inductive Role where
  | transferSource
  | transferTarget
  | residue
  | twiddleTable
  | tablesPerChannel
  | galoisOrder
  | conversionWeights
  | conversionModuli
  | conversionInput
  | conversionOutput
  | conversionResidues
deriving DecidableEq, Repr

/-- The name under which a message mentions the operand. -/
def Role.label : Role → String
  | .transferSource => "dma load"
  | .transferTarget => "dma store"
  | .residue => "residue"
  | .twiddleTable => "twiddle table"
  | .tablesPerChannel => "twiddle tables per limb"
  | .galoisOrder => "automorphism step table order"
  | .conversionWeights => "bconv weights"
  | .conversionModuli => "bconv moduli"
  | .conversionInput => "bconv input"
  | .conversionOutput => "bconv output"
  | .conversionResidues => "bconv prescale"

/-- The causes for which an operation is refused. -/
inductive Fault where
  /-- A modulus below 2 or not below `2 ^ 62`. -/
  | modulusOutOfRange (modulus : UInt64)
  /-- Supplied reduction constants that are not those of the modulus. -/
  | invalidBarrett (modulus multiplier bits : UInt64)
  | notPowerOfTwo (value : Nat)
  /-- A tile side for which the twiddle layout does not fit its table. -/
  | sideTooSmall (side least : Nat)
  /-- A tile side for which twice the ring dimension is no 64-bit word. -/
  | ringDimOverflow (side : Nat)
  /-- No room for a single channel, or a basis without channels. -/
  | noChannels
  | tooManyChannels (requested most : Nat)
  /-- A window of modulus indices that leaves the installed ones. -/
  | windowOutOfRange (offset stop available : Nat)
  | galoisNotCoprime (element order : Nat)
  | stepOutOfRange (step length : Nat)
  | bufferTooShort (role : Role) (expected got : Nat)
  | lengthMismatch (role : Role) (expected got : Nat)
  | operandOutOfRange (role : Role) (value bound : UInt64)
  /-- A matrix product with an empty dimension. -/
  | emptyShape (rows inputs outputs : Nat)
  /-- More input channels than the accumulator of a cell can sum. -/
  | tooManyInputs (inputs most : Nat)
  | unknownOpcode (code : UInt8)
  /-- A kernel was started before a basis was installed. -/
  | notInitialized
  /-- A basis or table that was made for another geometry. -/
  | geometryMismatch
  | primesExhausted (bits : Nat) (order : UInt64)
  | noPrimitiveRoot (modulus order : UInt64)
  | notInvertible (value modulus : UInt64)
  /-- A root of unity whose order, as a 64-bit word, is zero. -/
  | zeroOrder
deriving DecidableEq, Repr

/-- What the user is told. -/
def Fault.message : Fault → String
  | modulusOutOfRange modulus => s!"modulus {modulus} is outside [2, 2^62)"
  | invalidBarrett modulus multiplier bits =>
    s!"barrett constants (m={multiplier}, k_half={bits}) are invalid for modulus {modulus}"
  | notPowerOfTwo value => s!"{value} is not a power of two"
  | sideTooSmall side least => s!"SQRT={side} is below the supported minimum of {least}"
  | ringDimOverflow side => s!"SQRT={side} overflows the ring dimension"
  | noChannels => "MAX_LIMBS must be at least one"
  | tooManyChannels requested most => s!"num_active_limbs={requested} exceeds MAX_LIMBS={most}"
  | windowOutOfRange offset stop available =>
    s!"modulus indices [{offset}, {stop}) exceed the {available} installed moduli"
  | galoisNotCoprime element order => s!"galois element {element} is not coprime with {order}"
  | stepOutOfRange step length =>
    s!"automorphism step {step} is outside the step table of length {length}"
  | bufferTooShort role expected got =>
    role.label ++ s!": buffer holds {got} words, expected at least {expected}"
  | lengthMismatch role expected got =>
    role.label ++ s!": length mismatch, expected {expected}, got {got}"
  | operandOutOfRange role value bound =>
    role.label ++ s!": operand {value} is not below {bound}"
  | emptyShape rows inputs outputs =>
    s!"base conversion shape {rows}x{inputs}x{outputs} has an empty dimension"
  | tooManyInputs inputs most =>
    s!"SIZE_Q={inputs} exceeds the accumulator bound of {most} input channels"
  | unknownOpcode code => s!"unknown opcode {code}"
  | notInitialized => "no limb set installed, run INIT first"
  | geometryMismatch => "limb set was built for a different core configuration"
  | primesExhausted bits order => s!"no NTT-friendly prime of {bits} bits left for order {order}"
  | noPrimitiveRoot modulus order => s!"no primitive {order}-th root of unity modulo {modulus}"
  | notInvertible value modulus => s!"{value} is not invertible modulo {modulus}"
  | zeroOrder => "a root of unity of order zero was asked for"

end RnsEngine
