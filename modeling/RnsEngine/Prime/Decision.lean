import RnsEngine.Word.Bits

/-!
# Deciding primality

`isPrime` decides whether a number is prime. Small numbers are tried against every divisor up
to their root. Large numbers are first put to the strong probable-prime test, which every prime
passes; one that passes is then certified: the number before it is factored, and a witness is
sought whose multiplicative order is exactly that number. A certificate is only ever found for
a prime, and where none is found trial division has the last word, so the answer is exact
whatever the search for factors returns.

All searches carry their bound as fuel. The search for factors may give up; `factors` then
returns a list that the certificate refuses.
-/

namespace RnsEngine

namespace Primality

/-! ### Trial division -/

/-- No number from `d` up to the root of `n` divides `n`; the first argument bounds the
number of divisors that are tried. -/
def noDivisorFrom (n : Nat) : Nat → Nat → Bool
  | 0, _ => true
  | fuel + 1, d =>
    if n < d * d then true
    else if n % d = 0 then false
    else noDivisorFrom n fuel (d + 1)

/-- Primality by trying all divisors. -/
def byTrial (n : Nat) : Bool :=
  decide (2 ≤ n) && noDivisorFrom n n 2

/-! ### Powers -/

/-- The power of `b` modulo `n`, lowest digit of the exponent first. -/
def powMod (b exponent n : Nat) : Nat :=
  (Nat.fold (bitLength exponent)
    (fun digit _ (s : Nat × Nat) =>
      (if exponent.testBit digit then s.1 * s.2 % n else s.1, s.2 * s.2 % n))
    (1 % n, b % n)).1

/-! ### The strong probable-prime test -/

/-- Takes out factors of two, at most as many as the first argument says: the count and the
cofactor. -/
def splitTwos : Nat → Nat → Nat × Nat
  | 0, n => (0, n)
  | fuel + 1, n =>
    if n % 2 = 0 then
      let (count, odd) := splitTwos fuel (n / 2)
      (count + 1, odd)
    else (0, n)

/-- One of `x`, `x ^ 2`, `x ^ 4`, …, as many as the first argument says, is `-1` modulo `n`. -/
def reachesMinusOne (n : Nat) : Nat → Nat → Bool
  | 0, _ => false
  | count + 1, x => decide (x = n - 1) || reachesMinusOne n count (x * x % n)

/-- The strong probable-prime test of `n` with base `b`. -/
def passes (n b : Nat) : Bool :=
  let (count, odd) := splitTwos (bitLength n) (n - 1)
  let x := powMod b odd n
  decide (x = 1) || reachesMinusOne n count x

/-- The bases that are tried. -/
def bases : List Nat := [2, 3, 5, 7, 11, 13, 17, 19, 23, 29, 31, 37]

/-! ### Factors -/

/-- Divides out small divisors from `d` on: what was taken out, and what is left. -/
def stripSmall : Nat → Nat → Nat → List Nat × Nat
  | 0, _, n => ([], n)
  | fuel + 1, d, n =>
    if n < d * d then ([], n)
    else if n % d = 0 then
      let (taken, rest) := stripSmall fuel d (n / d)
      (d :: taken, rest)
    else stripSmall fuel (d + 1) n

/-- The walk of the cycle search. -/
def walk (n offset x : Nat) : Nat := (x * x + offset) % n

/-- Two walkers, one twice as fast, until their distance shares a factor with `n`. -/
def sharedFactor (n offset : Nat) : Nat → Nat → Nat → Nat
  | 0, _, _ => n
  | fuel + 1, slow, fast =>
    let slow := walk n offset slow
    let fast := walk n offset (walk n offset fast)
    let g := Nat.gcd (max slow fast - min slow fast) n
    if 1 < g then g else sharedFactor n offset fuel slow fast

/-- A proper divisor of `n`, if one of a few walks meets one. -/
def properDivisor? (n : Nat) : Option Nat :=
  [1, 3, 5, 7, 11, 13].findSome? fun offset =>
    let g := sharedFactor n offset 4000000 2 2
    if 1 < g ∧ g < n then some g else none

/-- Splits `n` until every part passes the strong test; the first argument bounds the depth. -/
def splitLarge : Nat → Nat → List Nat
  | 0, n => [n]
  | fuel + 1, n =>
    if n < 2 then []
    else if bases.all (passes n) then [n]
    else
      match properDivisor? n with
      | none => [n]
      | some d => splitLarge fuel d ++ splitLarge fuel (n / d)

/-- A list of factors with product `n`, prime as far as the search got. -/
def factors (n : Nat) : List Nat :=
  let (small, rest) := stripSmall 1100 2 n
  if rest < 1000000 then (if rest = 1 then small else rest :: small)
  else small ++ splitLarge (bitLength rest) rest

/-! ### Certificates -/

/-- The order of `b` modulo `n` is exactly `n - 1`, given the primes `parts` that divide it. -/
def hasFullOrder (n : Nat) (parts : List Nat) (b : Nat) : Bool :=
  decide (powMod b (n - 1) n = 1) &&
    parts.all fun r => decide (powMod b ((n - 1) / r) n ≠ 1)

/-- Below this bound trial division is the quickest. -/
def trialBound : Nat := 2 ^ 20

/-- A certificate of primality is found: the number before `n` is a product of certified
primes, and some small number has full order. -/
def certified : Nat → Nat → Bool
  | 0, _ => false
  | fuel + 1, n =>
    if n < trialBound then byTrial n
    else
      let parts := factors (n - 1)
      let distinct := parts.eraseDups
      decide (parts.foldr (· * ·) 1 = n - 1) && distinct.all (certified fuel) &&
        (List.range' 2 5000).any (hasFullOrder n distinct)

end Primality

open Primality in
/-- Whether `n` is prime. -/
def isPrime (n : Nat) : Bool :=
  if n < trialBound then byTrial n
  else bases.all (fun b => decide (n % b ≠ 0)) && bases.all (passes n) &&
    (certified (bitLength n) n || byTrial n)

end RnsEngine
