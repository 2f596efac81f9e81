/-!
# Inverses modulo any number

`modInverse?` runs the extended Euclidean algorithm on the modulus and the number and keeps, for
each remainder, the multiple of the number that it is congruent to. Where the last remainder is
one, its multiple is the inverse.
-/

namespace RnsEngine

/-- The last remainder of Euclid's algorithm with its coefficient. The remainders come with
coefficients `a` and `b`; the first argument bounds the number of steps. -/
def lastRemainder : Nat → Nat → Nat → Int → Int → Nat × Int
  | 0, r, _, a, _ => (r, a)
  | fuel + 1, r, s, a, b =>
    if s = 0 then (r, a) else lastRemainder fuel s (r % s) b (a - (r / s : Nat) * b)

/-- The inverse of `x` modulo `m`, when they have no common factor. -/
def modInverse? (x m : Nat) : Option Nat :=
  let (r, a) := lastRemainder (m + 1) m (x % m) 0 1
  if r = 1 then some (a % m).toNat else none

end RnsEngine
