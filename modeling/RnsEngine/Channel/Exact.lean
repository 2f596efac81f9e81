import RnsEngine.Channel.Basic

/-!
# Exactness of channel arithmetic

The quotient of a product is estimated from a truncated product and a truncated reciprocal. With
`scale` for half the power of two above the modulus, `Reciprocal` states what the three
truncations are, and the estimate turns out to be at most the quotient and at most two below it
(`Reciprocal.mul_le` and `Reciprocal.lt_mul`). No number on the way leaves a word, so that on
reduced operands the operations of a channel are those of the integers modulo its modulus:
`Channel.toNat_add`, `toNat_sub`, `toNat_neg` and `toNat_mul`.
-/

namespace RnsEngine

/-- The numbers that an estimate of `p / q` is made of: a modulus between `scale` and its
double, the truncated reciprocal of the modulus, the truncated product, and the estimate. -/
structure Reciprocal (q scale p reciprocal top estimate : Nat) : Prop where
  scale_pos : 0 < scale
  scale_le : scale ≤ q
  lt_two_mul : q < 2 * scale
  reciprocal_eq : reciprocal = 4 * scale * scale / q
  top_eq : top = p / scale
  estimate_eq : estimate = top * reciprocal / (4 * scale)
  product_lt : p < q * q

namespace Reciprocal

variable {q scale p reciprocal top estimate : Nat}

/-- The reciprocal is at most four times the scale. -/
theorem reciprocal_le (h : Reciprocal q scale p reciprocal top estimate) :
    reciprocal ≤ 4 * scale := by
  rw [h.reciprocal_eq]
  exact Nat.div_le_of_le_mul (Nat.mul_comm q _ ▸ Nat.mul_le_mul_left _ h.scale_le)

/-- The truncated product is below four times the scale. -/
theorem top_lt (h : Reciprocal q scale p reciprocal top estimate) : top < 4 * scale := by
  rw [h.top_eq, Nat.div_lt_iff_lt_mul h.scale_pos]
  have hq : q * q ≤ 2 * scale * (2 * scale) :=
    Nat.mul_le_mul (Nat.le_of_lt h.lt_two_mul) (Nat.le_of_lt h.lt_two_mul)
  have hs : 2 * scale * (2 * scale) = 4 * scale * scale := by
    grind
  exact Nat.lt_of_lt_of_le h.product_lt (hs ▸ hq)

/-- The estimate does not exceed the quotient. -/
theorem mul_le (h : Reciprocal q scale p reciprocal top estimate) : estimate * q ≤ p := by
  have hr : reciprocal * q ≤ 4 * scale * scale := h.reciprocal_eq ▸ Nat.div_mul_le_self _ _
  have ht : top * scale ≤ p := h.top_eq ▸ Nat.div_mul_le_self _ _
  have he : estimate * (4 * scale) ≤ top * reciprocal := h.estimate_eq ▸ Nat.div_mul_le_self _ _
  have hpos : 0 < 4 * scale * scale :=
    Nat.mul_pos (Nat.mul_pos (by decide) h.scale_pos) h.scale_pos
  refine Nat.le_of_mul_le_mul_right ?_ hpos
  calc estimate * q * (4 * scale * scale) = estimate * (4 * scale) * (scale * q) := by grind
    _ ≤ top * reciprocal * (scale * q) := Nat.mul_le_mul_right _ he
    _ = top * scale * (reciprocal * q) := by grind
    _ ≤ p * (4 * scale * scale) := Nat.mul_le_mul ht hr

/-- The estimate is at most two below the quotient. -/
theorem lt_mul (h : Reciprocal q scale p reciprocal top estimate) : p < (estimate + 3) * q := by
  have hq : 0 < q := Nat.lt_of_lt_of_le h.scale_pos h.scale_le
  have h4 : 0 < 4 * scale := Nat.mul_pos (by decide) h.scale_pos
  have hr : 4 * scale * scale < (reciprocal + 1) * q := by
    rw [h.reciprocal_eq, Nat.mul_comm _ q]
    exact Nat.lt_mul_div_succ _ hq
  have ht : p < (top + 1) * scale := by
    rw [h.top_eq, Nat.mul_comm _ scale]
    exact Nat.lt_mul_div_succ _ h.scale_pos
  have he : top * reciprocal < (estimate + 1) * (4 * scale) := by
    rw [h.estimate_eq, Nat.mul_comm _ (4 * scale)]
    exact Nat.lt_mul_div_succ _ h4
  have hsum : (top + 1) * (reciprocal + 1) ≤ (estimate + 3) * (4 * scale) := by
    have := h.reciprocal_le
    have := h.top_lt
    grind
  have hpos : 0 < 4 * scale * scale := Nat.mul_pos h4 h.scale_pos
  refine Nat.lt_of_mul_lt_mul_right (a := 4 * scale * scale) ?_
  calc p * (4 * scale * scale) < (top + 1) * scale * ((reciprocal + 1) * q) :=
        Nat.mul_lt_mul'' ht hr
    _ = (top + 1) * (reciprocal + 1) * (scale * q) := by grind
    _ ≤ (estimate + 3) * (4 * scale) * (scale * q) := Nat.mul_le_mul_right _ hsum
    _ = (estimate + 3) * q * (4 * scale * scale) := by grind

/-- The estimate is below the modulus. -/
theorem estimate_lt (h : Reciprocal q scale p reciprocal top estimate) : estimate < q :=
  Nat.lt_of_mul_lt_mul_right (Nat.lt_of_le_of_lt h.mul_le h.product_lt)

end Reciprocal

namespace Channel

/-! ### The constants of a channel -/

/-- A modulus has a binary digit. -/
theorem bits_pos (c : Channel) : 0 < c.constants.bits := by
  have h := c.two_le_toNat
  rw [c.constants_eq]
  show 0 < bitLength c.modulus.toNat
  rw [bitLength, if_neg (by omega)]
  exact Nat.succ_pos _

/-- A modulus is at least half of the power of two above it. -/
theorem two_pow_le_modulus (c : Channel) : 2 ^ (c.constants.bits - 1) ≤ c.modulus.toNat := by
  have h := c.two_le_toNat
  rw [c.constants_eq]
  exact two_pow_le_of_pos (by omega)

/-- A modulus is below the power of two above it. -/
theorem modulus_lt_two_pow (c : Channel) : c.modulus.toNat < 2 ^ c.constants.bits := by
  rw [c.constants_eq]
  exact lt_two_pow_bitLength _

/-- A modulus has at most 62 binary digits. -/
theorem bits_le (c : Channel) : c.constants.bits ≤ 62 := by
  refine Nat.le_of_not_lt fun h => ?_
  have hpow : 2 ^ 62 ≤ 2 ^ (c.constants.bits - 1) := Nat.pow_le_pow_right (by decide) (by omega)
  have := c.two_pow_le_modulus
  have := c.toNat_lt
  omega

/-- The power of two above the modulus is twice the one below. -/
theorem two_pow_bits (c : Channel) : 2 ^ c.constants.bits = 2 * 2 ^ (c.constants.bits - 1) := by
  obtain ⟨k, hk⟩ := Nat.exists_eq_add_of_lt c.bits_pos
  rw [hk, show 0 + k + 1 - 1 = k by omega, show 0 + k + 1 = k + 1 by omega, Nat.pow_succ]
  omega

/-- The power of two that the reciprocal is taken of, by the one below the modulus. -/
theorem two_pow_two_mul_bits (c : Channel) :
    2 ^ (2 * c.constants.bits) = 4 * 2 ^ (c.constants.bits - 1) * 2 ^ (c.constants.bits - 1) := by
  rw [Nat.two_mul, Nat.pow_add, c.two_pow_bits]
  grind

/-- The word that is kept of the reciprocal is all of it. -/
theorem toNat_multiplier (c : Channel) :
    c.constants.multiplier.toNat =
      4 * 2 ^ (c.constants.bits - 1) * 2 ^ (c.constants.bits - 1) / c.modulus.toNat := by
  have hm : c.constants.multiplier =
      UInt64.ofNat (2 ^ (2 * c.constants.bits) / c.modulus.toNat) := by
    rw [c.constants_eq]
    rfl
  have hle : 2 ^ (c.constants.bits - 1) ≤ 2 ^ 61 :=
    Nat.pow_le_pow_right (by decide) (by have := c.bits_le; omega)
  have hdiv : 4 * 2 ^ (c.constants.bits - 1) * 2 ^ (c.constants.bits - 1) / c.modulus.toNat ≤
      4 * 2 ^ (c.constants.bits - 1) :=
    Nat.div_le_of_le_mul
      (Nat.mul_comm c.modulus.toNat _ ▸ Nat.mul_le_mul_left _ c.two_pow_le_modulus)
  rw [hm, c.two_pow_two_mul_bits, UInt64.toNat_ofNat', Nat.mod_eq_of_lt (by omega)]

/-- The estimate for a product of reduced words is made of the constants of the channel, and is
a word. -/
theorem reciprocal_estimate (c : Channel) {p : Nat}
    (hp : p < c.modulus.toNat * c.modulus.toNat) :
    Reciprocal c.modulus.toNat (2 ^ (c.constants.bits - 1)) p c.constants.multiplier.toNat
      (p / 2 ^ (c.constants.bits - 1))
      (estimateQuotient p c.constants.multiplier c.constants.bits).toNat := by
  have hlt : c.modulus.toNat < 2 * 2 ^ (c.constants.bits - 1) :=
    c.two_pow_bits ▸ c.modulus_lt_two_pow
  have exact_estimate : Reciprocal c.modulus.toNat (2 ^ (c.constants.bits - 1)) p
      c.constants.multiplier.toNat (p / 2 ^ (c.constants.bits - 1))
      (p / 2 ^ (c.constants.bits - 1) * c.constants.multiplier.toNat /
        (4 * 2 ^ (c.constants.bits - 1))) :=
    { scale_pos := Nat.two_pow_pos _
      scale_le := c.two_pow_le_modulus
      lt_two_mul := hlt
      reciprocal_eq := c.toNat_multiplier
      top_eq := rfl
      estimate_eq := rfl
      product_lt := hp }
  have htop : (UInt64.ofNat (p >>> (c.constants.bits - 1))).toNat =
      p / 2 ^ (c.constants.bits - 1) := by
    have hle : 2 ^ (c.constants.bits - 1) ≤ 2 ^ 61 :=
      Nat.pow_le_pow_right (by decide) (by have := c.bits_le; omega)
    have := exact_estimate.top_lt
    rw [Nat.shiftRight_eq_div_pow, UInt64.toNat_ofNat', Nat.mod_eq_of_lt (by omega)]
  have hestimate : (estimateQuotient p c.constants.multiplier c.constants.bits).toNat =
      p / 2 ^ (c.constants.bits - 1) * c.constants.multiplier.toNat /
        (4 * 2 ^ (c.constants.bits - 1)) := by
    have := exact_estimate.estimate_lt
    have := c.toNat_lt
    rw [estimateQuotient, htop, Nat.shiftRight_eq_div_pow, Nat.pow_succ, c.two_pow_bits,
      show 2 * 2 ^ (c.constants.bits - 1) * 2 = 4 * 2 ^ (c.constants.bits - 1) by omega,
      UInt64.toNat_ofNat', Nat.mod_eq_of_lt (by omega)]
  exact hestimate ▸ exact_estimate

/-! ### The operations -/

variable (c : Channel) {a b : UInt64}

/-- The sum of reduced words is exact. -/
theorem toNat_add (ha : a < c.modulus) (hb : b < c.modulus) :
    (c.add a b).toNat = (a.toNat + b.toNat) % c.modulus.toNat :=
  toNat_addMod ha hb (Nat.lt_trans c.toNat_lt (by decide))

/-- The difference of reduced words is exact. -/
theorem toNat_sub (ha : a < c.modulus) (hb : b < c.modulus) :
    (c.sub a b).toNat = (a.toNat + (c.modulus.toNat - b.toNat)) % c.modulus.toNat :=
  toNat_subMod ha hb (Nat.lt_trans c.toNat_lt (by decide))

/-- The negative of a reduced word is exact. -/
theorem toNat_neg (ha : a < c.modulus) :
    (c.neg a).toNat = (c.modulus.toNat - a.toNat) % c.modulus.toNat :=
  toNat_negMod ha

/-- The product of reduced words is exact. -/
theorem toNat_mul (ha : a < c.modulus) (hb : b < c.modulus) :
    (c.mul a b).toNat = a.toNat * b.toNat % c.modulus.toNat := by
  have h := c.reciprocal_estimate (Nat.mul_lt_mul'' (UInt64.lt_iff_toNat_lt.1 ha)
    (UInt64.lt_iff_toNat_lt.1 hb))
  exact toNat_mulMod c.toNat_lt h.mul_le h.lt_mul

/-- A residue is reduced. -/
theorem lt_modulus_of_toNat_eq_mod {x : UInt64} {n : Nat}
    (h : x.toNat = n % c.modulus.toNat) : x < c.modulus := by
  rw [UInt64.lt_iff_toNat_lt, h]
  exact Nat.mod_lt _ (Nat.lt_of_lt_of_le (by decide) c.two_le_toNat)

/-- Sums are reduced. -/
theorem add_lt (ha : a < c.modulus) (hb : b < c.modulus) : c.add a b < c.modulus :=
  c.lt_modulus_of_toNat_eq_mod (c.toNat_add ha hb)

/-- Differences are reduced. -/
theorem sub_lt (ha : a < c.modulus) (hb : b < c.modulus) : c.sub a b < c.modulus :=
  c.lt_modulus_of_toNat_eq_mod (c.toNat_sub ha hb)

/-- Negatives are reduced. -/
theorem neg_lt (ha : a < c.modulus) : c.neg a < c.modulus :=
  c.lt_modulus_of_toNat_eq_mod (c.toNat_neg ha)

/-- Products are reduced. -/
theorem mul_lt (ha : a < c.modulus) (hb : b < c.modulus) : c.mul a b < c.modulus :=
  c.lt_modulus_of_toNat_eq_mod (c.toNat_mul ha hb)

end Channel

end RnsEngine
