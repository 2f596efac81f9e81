import RnsEngine.Fault
import RnsEngine.Prime.Decision

/-!
# Walking the primes around a power of two

The moduli of a residue number system are primes congruent to one modulo a power of two, the
`order`. A `PrimeWalk` stands at `2 ^ bits + 1` and enumerates such primes in two directions:
upwards through `[2 ^ bits + 1, 2 ^ bits + 2 ^ (bits - 1)]` and downwards through
`[2 ^ (bits - 1), 2 ^ bits]`, each in steps of `order`.

A candidate is passed before it is tested, so no prime is drawn twice, and a direction that
has left its interval stays closed. `drawEither` prefers one direction and falls back to the
other; `drawMany` alternates. A draw that fails still leaves the walk where it got to.
-/

namespace RnsEngine

/-- A place in the enumeration: the next candidate of either direction, and whether the
direction is still open. -/
structure PrimeWalk where
  bits : Nat
  order : UInt64
  above : UInt64
  below : UInt64
  aboveOpen : Bool
  belowOpen : Bool
deriving DecidableEq, Repr

namespace PrimeWalk

/-- The largest exponent for which every candidate stays below `2 ^ 62`. -/
def maxBits : Nat := 61

/-- The word `2 ^ bits`. -/
def powerOfTwo (bits : Nat) : UInt64 := 1 <<< UInt64.ofNat bits

/-- The walk around `2 ^ bits` in steps of `order`, a power of two below it. -/
def start (bits : Nat) (order : UInt64) : Except Fault PrimeWalk :=
  if order = 0 ∨ order &&& (order - 1) ≠ 0 then .error (.notPowerOfTwo order.toNat)
  else if maxBits < bits ∨ powerOfTwo bits ≤ order then .error (.primesExhausted bits order)
  else
    let first := powerOfTwo bits + 1
    .ok { bits, order, above := first, below := first - order,
          aboveOpen := true, belowOpen := true }

/-- The last word of the upward interval. -/
def highest (w : PrimeWalk) : UInt64 := powerOfTwo w.bits + powerOfTwo (w.bits - 1)

/-- The first word of the downward interval. -/
def lowest (w : PrimeWalk) : UInt64 := powerOfTwo (w.bits - 1)

/-- Passes candidates upwards until one is prime; the first argument bounds their number. -/
def climb : Nat → PrimeWalk → Option UInt64 × PrimeWalk
  | 0, w => (none, w)
  | fuel + 1, w =>
    if w.highest < w.above then (none, { w with aboveOpen := false })
    else
      let passed := { w with above := w.above + w.order }
      if isPrime w.above.toNat then (some w.above, passed) else climb fuel passed

/-- Passes candidates downwards until one is prime; the first argument bounds their number. -/
def descend : Nat → PrimeWalk → Option UInt64 × PrimeWalk
  | 0, w => (none, w)
  | fuel + 1, w =>
    if w.below < w.lowest then (none, { w with belowOpen := false })
    else
      let passed := { w with below := w.below - w.order }
      if isPrime w.below.toNat then (some w.below, passed) else descend fuel passed

/-- The next prime upwards. There are no more candidates than words ahead, and one step closes
the direction. -/
def nextAbove (w : PrimeWalk) : Option UInt64 × PrimeWalk :=
  if w.aboveOpen then climb (w.highest.toNat + 1 - w.above.toNat + 1) w else (none, w)

/-- The next prime downwards. -/
def nextBelow (w : PrimeWalk) : Option UInt64 × PrimeWalk :=
  if w.belowOpen then descend (w.below.toNat + 1 - w.lowest.toNat + 1) w else (none, w)

/-- The second attempt starts where a failed first one stopped. -/
def orElse (first second : PrimeWalk → Option UInt64 × PrimeWalk) (w : PrimeWalk) :
    Option UInt64 × PrimeWalk :=
  match first w with
  | (some p, w) => (some p, w)
  | (none, w) => second w

/-- The next prime in the preferred direction, or else in the other. -/
def nextEither (upward : Bool) : PrimeWalk → Option UInt64 × PrimeWalk :=
  if upward then orElse nextAbove nextBelow else orElse nextBelow nextAbove

/-- So many primes, the preferred direction changing with each. -/
def nextMany : Nat → Bool → PrimeWalk → Option (List UInt64) × PrimeWalk
  | 0, _, w => (some [], w)
  | count + 1, upward, w =>
    match nextEither upward w with
    | (none, w) => (none, w)
    | (some p, w) =>
      match nextMany count (!upward) w with
      | (none, w) => (none, w)
      | (some ps, w) => (some (p :: ps), w)

/-! ### Draws that report their failure -/

/-- A failed draw is reported with the bounds of the walk. -/
def report {α : Type} (w : PrimeWalk) (r : Option α × PrimeWalk) :
    Except Fault α × PrimeWalk :=
  match r with
  | (some a, after) => (.ok a, after)
  | (none, after) => (.error (.primesExhausted w.bits w.order), after)

/-- Draws the next prime upwards. -/
def drawAbove (w : PrimeWalk) : Except Fault UInt64 × PrimeWalk := w.report w.nextAbove

/-- Draws the next prime downwards. -/
def drawBelow (w : PrimeWalk) : Except Fault UInt64 × PrimeWalk := w.report w.nextBelow

/-- Draws from the preferred direction, or else from the other. -/
def drawEither (upward : Bool) (w : PrimeWalk) : Except Fault UInt64 × PrimeWalk :=
  w.report (w.nextEither upward)

/-- Draws so many primes, upwards first. -/
def drawMany (count : Nat) (w : PrimeWalk) : Except Fault (List UInt64) × PrimeWalk :=
  w.report (nextMany count true w)

end PrimeWalk

end RnsEngine
