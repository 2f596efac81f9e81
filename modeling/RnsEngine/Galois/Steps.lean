import RnsEngine.Galois.Inverse
import RnsEngine.Geometry

/-!
# Galois elements

The substitution of `X ^ k` for `X` permutes the coefficients of a polynomial modulo
`X ^ ringDim + 1`, up to signs, when `k` is odd. `GaloisSteps` is a table of such exponents
modulo the order `2 * ringDim`; a step is an index into it. The rotations are the powers of
five, half as many as there are coefficients.
-/

namespace RnsEngine

/-- A table of exponents modulo an order. -/
structure GaloisSteps where
  order : Nat
  elements : Array Nat
deriving DecidableEq, Repr

namespace GaloisSteps

/-- The generator of the rotations. -/
def generator : Nat := 5

/-- The first powers of the generator modulo `order`, from `k` on. -/
def powersFrom (order : Nat) : Nat → Nat → List Nat
  | 0, _ => []
  | count + 1, k => k :: powersFrom order count (k * generator % order)

/-- The powers of five with exponents below half the ring dimension. -/
def rotations (g : Geometry) : GaloisSteps :=
  { order := g.order, elements := (powersFrom g.order (g.ringDim / 2) 1).toArray }

/-- A table of given exponents; each must be odd, and is reduced modulo the order. -/
def ofElements (g : Geometry) (elements : List Nat) : Except Fault GaloisSteps := do
  let reduced ← elements.mapM fun k =>
    if k % 2 = 0 then Except.error (Fault.galoisNotCoprime k g.order) else .ok (k % g.order)
  return { order := g.order, elements := reduced.toArray }

/-- The number of steps. -/
def size (s : GaloisSteps) : Nat := s.elements.size

/-- There are no steps. -/
def isEmpty (s : GaloisSteps) : Bool := s.elements.isEmpty

/-- The exponent of a step. -/
def element (s : GaloisSteps) (step : Nat) : Except Fault Nat :=
  match s.elements[step]? with
  | some k => .ok k
  | none => .error (.stepOutOfRange step s.size)

/-- The first step whose exponent undoes that of the given step, if there is one. -/
def inverseStep (s : GaloisSteps) (step : Nat) : Except Fault (Option Nat) := do
  let k ← s.element step
  let inverse ← galoisInverse (UInt64.ofNat k) (UInt64.ofNat s.order)
  return s.elements.toList.findIdx? fun e => decide (e = inverse.toNat)

end GaloisSteps

end RnsEngine
