import RnsEngine.Channel.Barrett
import RnsEngine.Word.Residue

/-!
# Residue channels

A channel is one modulus of a residue number system with what is needed to compute modulo it:
a word in `[2, 2 ^ 62)` and its reciprocal constants. `Channel.ofModulus` and
`Channel.ofConstants` are the two ways to obtain one, from the modulus alone or from constants
that were worked out elsewhere; both give the same channel for the same modulus
(`Channel.ext_modulus`).

The operations expect operands below the modulus; `pow` and `inv` reduce theirs first.
-/

namespace RnsEngine

/-- The exclusive upper bound of every modulus, `2 ^ 62`. -/
def modulusBound : UInt64 := 0x4000000000000000

/-- The bound is a power of two. -/
theorem toNat_modulusBound : modulusBound.toNat = 2 ^ 62 := rfl

/-- A modulus with its reciprocal constants. -/
structure Channel where
  modulus : UInt64
  constants : Barrett
  two_le : 2 ≤ modulus
  lt_bound : modulus < modulusBound
  constants_eq : constants = Barrett.ofModulus modulus
deriving DecidableEq

namespace Channel

/-- A channel is determined by its modulus. -/
theorem ext_modulus {c d : Channel} (h : c.modulus = d.modulus) : c = d := by
  cases c with
  | mk m k _ _ hk =>
    cases d with
    | mk m' k' _ _ hk' =>
      cases h
      cases hk
      cases hk'
      rfl

/-- The channel of a modulus. -/
def ofModulus (modulus : UInt64) : Except Fault Channel :=
  if h : 2 ≤ modulus ∧ modulus < modulusBound then
    .ok ⟨modulus, Barrett.ofModulus modulus, h.1, h.2, rfl⟩
  else .error (.modulusOutOfRange modulus)

/-- The channel of a modulus whose constants are supplied; they must be the right ones. -/
def ofConstants (modulus multiplier bits : UInt64) : Except Fault Channel := do
  let channel ← ofModulus modulus
  let _ ← Barrett.check modulus multiplier bits
  return channel

/-- The sum of two reduced words. -/
def add (c : Channel) (a b : UInt64) : UInt64 := addMod a b c.modulus

/-- The difference of two reduced words. -/
def sub (c : Channel) (a b : UInt64) : UInt64 := subMod a b c.modulus

/-- The negative of a reduced word. -/
def neg (c : Channel) (a : UInt64) : UInt64 := negMod a c.modulus

/-- The product of two reduced words. -/
def mul (c : Channel) (a b : UInt64) : UInt64 :=
  mulMod a b c.modulus c.constants.multiplier c.constants.bits

/-- One binary digit of a power: the second component runs through the repeated squares of the
base, and the first collects those whose digit is set in the exponent. -/
def powStep (c : Channel) (exponent digit : Nat) (s : UInt64 × UInt64) : UInt64 × UInt64 :=
  (if exponent.testBit digit then c.mul s.1 s.2 else s.1, c.mul s.2 s.2)

/-- The power of any word, lowest digit of the exponent first. -/
def pow (c : Channel) (x : UInt64) (exponent : Nat) : UInt64 :=
  (Nat.fold (bitLength exponent) (fun digit _ s => c.powStep exponent digit s)
    (1 % c.modulus, x % c.modulus)).1

/-- The inverse of any word modulo a prime, as its power with exponent `modulus - 2`. Words
divisible by the modulus have none. -/
def inv (c : Channel) (x : UInt64) : Except Fault UInt64 :=
  let reduced := x % c.modulus
  if reduced = 0 then .error (.notInvertible reduced c.modulus)
  else .ok (c.pow reduced (c.modulus - 2).toNat)

/-! ### Bounds of the modulus -/

/-- The modulus is at least two. -/
theorem two_le_toNat (c : Channel) : 2 ≤ c.modulus.toNat :=
  UInt64.le_iff_toNat_le.1 c.two_le

/-- The modulus is positive. -/
theorem modulus_pos (c : Channel) : 0 < c.modulus.toNat :=
  Nat.lt_of_lt_of_le Nat.two_pos c.two_le_toNat

/-- The modulus is below `2 ^ 62`. -/
theorem toNat_lt (c : Channel) : c.modulus.toNat < 2 ^ 62 :=
  toNat_modulusBound ▸ UInt64.lt_iff_toNat_lt.1 c.lt_bound

/-- What `ofModulus` returns has the modulus that was asked for. -/
theorem modulus_eq_of_ofModulus {modulus : UInt64} {c : Channel}
    (h : ofModulus modulus = .ok c) : c.modulus = modulus := by
  unfold ofModulus at h
  split at h
  · rw [← Except.ok.inj h]
  · cases h

/-- A channel can be built again from its own modulus. -/
theorem ofModulus_modulus (c : Channel) : ofModulus c.modulus = .ok c := by
  unfold ofModulus
  rw [dif_pos ⟨c.two_le, c.lt_bound⟩]
  exact congrArg Except.ok (ext_modulus rfl)

end Channel

end RnsEngine
