import RnsEngine.Fault
import RnsEngine.Word.Bits

/-!
# Reciprocal constants of a modulus

Reduction without division multiplies by a scaled reciprocal. For a modulus with `bits` binary
digits the reciprocal is `⌊2 ^ (2 * bits) / modulus⌋`; both numbers are determined by the
modulus, so constants that come from outside are only compared with the derived ones.
-/

namespace RnsEngine

/-- The scaled reciprocal of a modulus and the digit count of the modulus. -/
structure Barrett where
  multiplier : UInt64
  bits : Nat
deriving DecidableEq, Repr

/-- The constants of a modulus. -/
def Barrett.ofModulus (modulus : UInt64) : Barrett :=
  let bits := bitLength modulus.toNat
  { multiplier := UInt64.ofNat (2 ^ (2 * bits) / modulus.toNat), bits }

/-- The constants of a modulus; zero has no reciprocal. -/
def Barrett.ofModulus? (modulus : UInt64) : Option Barrett :=
  if modulus = 0 then none else some (Barrett.ofModulus modulus)

/-- Accepts constants exactly when they are those of the modulus. -/
def Barrett.check (modulus multiplier bits : UInt64) : Except Fault Barrett :=
  let derived := Barrett.ofModulus modulus
  if derived.multiplier = multiplier ∧ derived.bits = bits.toNat then .ok derived
  else .error (.invalidBarrett modulus multiplier bits)

/-- Supplied constants that pass are the derived ones. -/
theorem Barrett.eq_ofModulus_of_check {modulus multiplier bits : UInt64} {b : Barrett}
    (h : Barrett.check modulus multiplier bits = .ok b) : b = Barrett.ofModulus modulus := by
  simp only [Barrett.check] at h
  split at h
  · exact (Except.ok.inj h).symm
  · cases h

end RnsEngine
