import RnsEngine.Channel.Basic
import RnsEngine.Prime.Decision

/-!
# Roots of unity

A transform of `dim` words modulo a prime evaluates at the odd powers of a primitive root of
unity of order `2 * dim`. Such a root is a power of any quadratic non-residue; small numbers
are tried in order, and `primitiveRoot` returns the root that the first of them gives. Its
`dim`-th power is `-1`.
-/

namespace RnsEngine

/-- Candidates are tried below this bound. -/
def candidateBound : Nat := 2 ^ 16

/-- The numbers that are tried for a modulus. -/
def rootCandidates (modulus : UInt64) : List Nat :=
  List.range' 2 (min modulus.toNat candidateBound - 2)

/-- The power of a candidate that is a root of the wanted order, if the candidate gives one. -/
def Channel.rootOf? (c : Channel) (dim order : UInt64) (candidate : Nat) : Option UInt64 :=
  let root := c.pow (UInt64.ofNat candidate) ((c.modulus - 1) / order).toNat
  if c.pow root dim.toNat = c.modulus - 1 then some root else none

/-- The primitive root of unity of order `2 * dim` that the smallest candidate gives. The order
is a word; where it wraps around to zero there is no such root to speak of. -/
def Channel.primitiveRoot (c : Channel) (dim : UInt64) : Except Fault UInt64 :=
  let order := dim <<< 1
  if order = 0 then .error .zeroOrder
  else if (c.modulus - 1) % order ≠ 0 ∨ ¬ isPrime c.modulus.toNat then
    .error (.noPrimitiveRoot c.modulus order)
  else
    match (rootCandidates c.modulus).findSome? (c.rootOf? dim order) with
    | some root => .ok root
    | none => .error (.noPrimitiveRoot c.modulus order)

end RnsEngine
