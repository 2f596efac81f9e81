import RnsEngine.Proofs.Refusal
import RnsEngine.Ring.Residues

/-!
# Exact arithmetic in a channel

A product of reduced words is reduced without division: the reciprocal of the modulus gives an
estimate of the quotient, and what the estimate leaves is corrected twice.
`Barrett.Reduces` says of one number that every step of this is exact: nothing is lost where a
number is narrowed to a word, the estimate misses the quotient by at most two, and two corrections
make up for that. `Channel.arithmetic_exact` proves it for every modulus that a channel may have,
with constants from either source, and draws from it that the operations of a channel are those of
the residues.
-/

namespace RnsEngine

namespace Barrett

/-- What an estimated quotient leaves of a number, in word arithmetic. -/
def remainder (k : Barrett) (q : UInt64) (p : ℕ) : UInt64 :=
  UInt64.ofNat p - estimateQuotient p k.multiplier k.bits * q

/-- The constants of a modulus: the digit count, and a reciprocal that fits the word it is kept in.
Three times the modulus fits a word as well. -/
structure Scales (k : Barrett) (q : UInt64) : Prop where
  bits_pos : 0 < k.bits
  bits_le : k.bits ≤ 62
  lt_two_pow : q.toNat < 2 ^ k.bits
  two_pow_le : 2 ^ (k.bits - 1) ≤ q.toNat
  three_mul_lt : 3 * q.toNat < 2 ^ 64
  reciprocal_lt : 2 ^ (2 * k.bits) / q.toNat < 2 ^ 64
  toNat_multiplier : k.multiplier.toNat = 2 ^ (2 * k.bits) / q.toNat

/-- A number is reduced exactly: the numbers on the way fit the registers that they are kept in, the
estimate is the quotient or at most two below it, the remainder is the true one, and two corrections
make it the residue. -/
structure Reduces (k : Barrett) (q : UInt64) (p : ℕ) : Prop where
  number_lt : p < 2 ^ 128
  top_lt : p >>> (k.bits - 1) < 2 ^ 64
  scaled_lt : p >>> (k.bits - 1) * k.multiplier.toNat < 2 ^ 128
  estimate_lt : (p >>> (k.bits - 1) * k.multiplier.toNat) >>> (k.bits + 1) < 2 ^ 64
  toNat_estimate : (estimateQuotient p k.multiplier k.bits).toNat =
    (p >>> (k.bits - 1) * k.multiplier.toNat) >>> (k.bits + 1)
  estimate_le : (estimateQuotient p k.multiplier k.bits).toNat ≤ p / q.toNat
  quotient_le : p / q.toNat ≤ (estimateQuotient p k.multiplier k.bits).toNat + 2
  remainder_add : (k.remainder q p).toNat +
    (estimateQuotient p k.multiplier k.bits).toNat * q.toNat = p
  remainder_lt : (k.remainder q p).toNat < 3 * q.toNat
  corrected_lt : (reduceOnce (k.remainder q p) q).toNat < 2 * q.toNat
  corrected_twice : (reduceOnce (reduceOnce (k.remainder q p) q) q).toNat = p % q.toNat

end Barrett

namespace Channel

variable (c : Channel)

/-! ### Reduction -/

/-- The constants of a channel are those of its modulus. -/
theorem scales : c.constants.Scales c.modulus where
  bits_pos := c.bits_pos
  bits_le := c.bits_le
  lt_two_pow := c.modulus_lt_two_pow
  two_pow_le := c.two_pow_le_modulus
  three_mul_lt := by
    have := c.toNat_lt
    omega
  reciprocal_lt := by
    rw [c.two_pow_two_mul_bits, ← c.toNat_multiplier]
    exact UInt64.toNat_lt _
  toNat_multiplier := by rw [c.two_pow_two_mul_bits, c.toNat_multiplier]

section Reduction

variable {c} {p : ℕ} (hp : p < c.modulus.toNat * c.modulus.toNat)

include hp

/-- The upper part of a number below the square of the modulus fits a word. -/
theorem top_lt : p >>> (c.constants.bits - 1) < 2 ^ 64 := by
  have hscale : 2 ^ (c.constants.bits - 1) ≤ 2 ^ 61 :=
    Nat.pow_le_pow_right Nat.two_pos (by have := c.bits_le; omega)
  have := (c.reciprocal_estimate hp).top_lt
  rw [Nat.shiftRight_eq_div_pow]
  omega

/-- The estimate of the quotient is not changed by the registers that it is computed in. -/
theorem toNat_estimate : (estimateQuotient p c.constants.multiplier c.constants.bits).toNat =
    (p >>> (c.constants.bits - 1) * c.constants.multiplier.toNat) >>> (c.constants.bits + 1) := by
  rw [(c.reciprocal_estimate hp).estimate_eq, Nat.shiftRight_eq_div_pow,
    Nat.shiftRight_eq_div_pow, Nat.pow_succ, c.two_pow_bits]
  congr 1
  omega

/-- The remainder of a number below the square of the modulus is the true one. -/
theorem toNat_remainder : (c.constants.remainder c.modulus p).toNat = p -
    (estimateQuotient p c.constants.multiplier c.constants.bits).toNat * c.modulus.toNat := by
  have h := c.reciprocal_estimate hp
  exact toNat_sub_estimate c.toNat_lt h.mul_le h.lt_mul

/-- The remainder of a number below the square of the modulus is below three times the modulus. -/
theorem remainder_lt : (c.constants.remainder c.modulus p).toNat < 3 * c.modulus.toNat := by
  have hlt := (c.reciprocal_estimate hp).lt_mul
  have := c.modulus_pos
  rw [Nat.add_mul] at hlt
  rw [toNat_remainder hp]
  omega

/-- A channel reduces numbers below the square of its modulus exactly. -/
theorem reduces : c.constants.Reduces c.modulus p := by
  have h := c.reciprocal_estimate hp
  have hsquare : c.modulus.toNat * c.modulus.toNat ≤ 2 ^ 62 * 2 ^ 62 :=
    Nat.mul_le_mul (Nat.le_of_lt c.toNat_lt) (Nat.le_of_lt c.toNat_lt)
  exact
    { number_lt := by omega
      top_lt := top_lt hp
      scaled_lt := Nat.pow_add 2 64 64 ▸ Nat.mul_lt_mul'' (top_lt hp) (UInt64.toNat_lt _)
      estimate_lt := toNat_estimate hp ▸ UInt64.toNat_lt _
      toNat_estimate := toNat_estimate hp
      estimate_le := (Nat.le_div_iff_mul_le c.modulus_pos).2 h.mul_le
      quotient_le := Nat.le_of_lt_succ ((Nat.div_lt_iff_lt_mul c.modulus_pos).2 h.lt_mul)
      remainder_add := by rw [toNat_remainder hp, Nat.sub_add_cancel h.mul_le]
      remainder_lt := remainder_lt hp
      corrected_lt := toNat_reduceOnce_lt (remainder_lt hp)
      corrected_twice := toNat_reduceOnce_sub_estimate c.toNat_lt h.mul_le h.lt_mul }

end Reduction

/-! ### The operations -/

/-- The operations of a channel on reduced words are the ring operations of their residues, and
their results are the reduced words with these residues. -/
structure IsExact (c : Channel) : Prop where
  add : ∀ {a b}, a < c.modulus → b < c.modulus →
    c.add a b < c.modulus ∧ c.residue (c.add a b) = c.residue a + c.residue b
  sub : ∀ {a b}, a < c.modulus → b < c.modulus →
    c.sub a b < c.modulus ∧ c.residue (c.sub a b) = c.residue a - c.residue b
  neg : ∀ {a}, a < c.modulus → c.neg a < c.modulus ∧ c.residue (c.neg a) = -c.residue a
  mul : ∀ {a b}, a < c.modulus → b < c.modulus →
    c.mul a b < c.modulus ∧ c.residue (c.mul a b) = c.residue a * c.residue b
  residue_inj : ∀ {a b}, a < c.modulus → b < c.modulus → c.residue a = c.residue b → a = b

/-- Every channel is exact. -/
theorem isExact : c.IsExact where
  add ha hb := ⟨c.add_lt ha hb, c.residue_add ha hb⟩
  sub ha hb := ⟨c.sub_lt ha hb, c.residue_sub ha hb⟩
  neg ha := ⟨c.neg_lt ha, c.residue_neg ha⟩
  mul ha hb := ⟨c.mul_lt ha hb, c.residue_mul ha hb⟩
  residue_inj := c.eq_of_residue

/-- A channel that is built from constants is the one of the modulus. -/
theorem ofModulus_eq_ok_of_ofConstants {modulus multiplier bits : UInt64} {c : Channel}
    (h : ofConstants modulus multiplier bits = .ok c) : ofModulus modulus = .ok c := by
  obtain ⟨d, hd, h⟩ := bind_eq_ok_iff.1 h
  obtain ⟨_, -, h⟩ := bind_eq_ok_iff.1 h
  rwa [← Except.ok.inj h]

/-- **Exact arithmetic.** For every modulus in `[2, 2 ^ 62)`, with the constants that are derived
from it or with any that pass the check, the product of reduced words is the exact residue, and
every number on the way to it is exact. The modulus makes a channel with these constants, the same
from either source, whose operations are those of the integers modulo the modulus. -/
theorem arithmetic_exact {q : UInt64} (hle : 2 ≤ q) (hlt : q < modulusBound) {k : Barrett}
    (hk : k = Barrett.ofModulus q ∨ ∃ multiplier bits, Barrett.check q multiplier bits = .ok k) :
    k.Scales q ∧
    (∀ a b, a < q → b < q → k.Reduces q (a.toNat * b.toNat) ∧
      (mulMod a b q k.multiplier k.bits).toNat = a.toNat * b.toNat % q.toNat) ∧
    ∃ c, ofModulus q = .ok c ∧ c.modulus = q ∧ c.constants = k ∧ c.IsExact ∧
      ∀ multiplier bits c', ofConstants q multiplier bits = .ok c' → c' = c := by
  obtain rfl : k = Barrett.ofModulus q := by
    rcases hk with hk | ⟨multiplier, bits, hk⟩
    · exact hk
    · exact Barrett.eq_ofModulus_of_check hk
  let c : Channel := ⟨q, Barrett.ofModulus q, hle, hlt, rfl⟩
  refine ⟨c.scales, fun a b ha hb => ?_, c, c.ofModulus_modulus, rfl, rfl, c.isExact,
    fun multiplier bits c' h => ?_⟩
  · have h : c.constants.Reduces c.modulus (a.toNat * b.toNat) :=
      reduces (Nat.mul_lt_mul'' (UInt64.lt_iff_toNat_lt.1 ha) (UInt64.lt_iff_toNat_lt.1 hb))
    exact ⟨h, h.corrected_twice⟩
  · have h' := (ofModulus_eq_ok_of_ofConstants h).symm.trans c.ofModulus_modulus
    exact Except.ok.inj h'

/-- The square of minus one modulo the greatest modulus, with constants that pass the check. -/
theorem arithmetic_exact_greatest :
    ∃ k, Barrett.check 0x3FFFFFFFFFFFFFFF 0x4000000000000001 62 = .ok k ∧
      k.Scales 0x3FFFFFFFFFFFFFFF ∧
      k.Reduces 0x3FFFFFFFFFFFFFFF (0x3FFFFFFFFFFFFFFE * 0x3FFFFFFFFFFFFFFE) ∧
      (mulMod 0x3FFFFFFFFFFFFFFE 0x3FFFFFFFFFFFFFFE 0x3FFFFFFFFFFFFFFF k.multiplier
        k.bits).toNat = 1 ∧
      ∃ c, ofModulus 0x3FFFFFFFFFFFFFFF = .ok c ∧ c.constants = k ∧ c.IsExact := by
  have hcheck : Barrett.check 0x3FFFFFFFFFFFFFFF 0x4000000000000001 62 =
      .ok (Barrett.ofModulus 0x3FFFFFFFFFFFFFFF) := by
    rw [Barrett.check, if_pos (by decide +kernel)]
  obtain ⟨hscales, hmul, c, hc, -, hconstants, hexact, -⟩ :=
    arithmetic_exact (by decide) (by decide) (.inr ⟨_, _, hcheck⟩)
  obtain ⟨hreduces, hproduct⟩ :=
    hmul 0x3FFFFFFFFFFFFFFE 0x3FFFFFFFFFFFFFFE (by decide) (by decide)
  exact ⟨_, hcheck, hscales, hreduces, hproduct.trans (by decide), c, hc, hconstants, hexact⟩

end Channel

end RnsEngine
