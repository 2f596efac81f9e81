import Mathlib.FieldTheory.Finite.Basic
import RnsEngine.Proofs.Fold
import RnsEngine.Ring.Residues

/-!
# Powers and inverses in a channel

`Channel.pow` is the power of residues for every exponent (`Channel.residue_pow`), whatever the
modulus. `Channel.inv` is one such power (`Channel.inv_eq_ok`), and the inverse of residues for a
prime modulus, where it succeeds on exactly the words that are not divisible by it
(`Channel.exists_inv`).
-/

namespace RnsEngine

namespace Channel

variable (c : Channel)

/-- The remainder of a word is reduced. -/
theorem mod_modulus_lt (x : UInt64) : x % c.modulus < c.modulus := by
  rw [UInt64.lt_iff_toNat_lt, UInt64.toNat_mod]
  exact Nat.mod_lt _ c.modulus_pos

/-- Reducing a word keeps its residue. -/
@[simp] theorem residue_mod (x : UInt64) : c.residue (x % c.modulus) = c.residue x :=
  c.residue_of_toNat_eq_mod (UInt64.toNat_mod _ _)

/-- The word one stands for one. -/
@[simp] theorem residue_one : c.residue 1 = 1 := by simp [residue]

/-- One is reduced. -/
theorem one_lt_modulus : 1 < c.modulus := UInt64.lt_iff_toNat_lt.2 c.two_le_toNat

/-- The last reduced word is the number before the modulus. -/
theorem toNat_modulus_sub_one : (c.modulus - 1).toNat = c.modulus.toNat - 1 :=
  UInt64.toNat_sub_of_le _ _ (UInt64.le_iff_toNat_le.2 c.modulus_pos)

/-- The last reduced word stands for minus one. -/
theorem residue_modulus_sub_one : c.residue (c.modulus - 1) = -1 := by
  rw [residue, toNat_modulus_sub_one, Nat.cast_sub c.modulus_pos, ZMod.natCast_self, zero_sub,
    Nat.cast_one]

/-- The number of a reduced word is the value of its residue. -/
theorem val_residue {x : UInt64} (hx : x < c.modulus) : (c.residue x).val = x.toNat := by
  rw [residue, ZMod.val_natCast, Nat.mod_eq_of_lt (UInt64.lt_iff_toNat_lt.1 hx)]

/-- A reduced word that stands for a number is the remainder of the number. -/
theorem toNat_eq_mod {x : UInt64} {n : ℕ} (hx : x < c.modulus) (h : c.residue x = n) :
    x.toNat = n % c.modulus.toNat := by
  rw [← c.val_residue hx, h, ZMod.val_natCast]

/-! ### Powers -/

/-- A power is reduced and stands for the power of the residue. -/
theorem pow_spec (x : UInt64) (e : ℕ) :
    c.pow x e < c.modulus ∧ c.residue (c.pow x e) = c.residue x ^ e := by
  have h := view_binaryPower c.mul c.residue (· < c.modulus) (fun _ _ => c.mul_lt)
    (fun _ _ => c.residue_mul) (1 % c.modulus) (x % c.modulus) (c.mod_modulus_lt 1)
    (c.mod_modulus_lt x) (by simp) e
  rwa [residue_mod] at h

/-- Powers are reduced. -/
theorem pow_lt (x : UInt64) (e : ℕ) : c.pow x e < c.modulus := (c.pow_spec x e).1

/-- A channel takes powers of residues. -/
@[simp] theorem residue_pow (x : UInt64) (e : ℕ) : c.residue (c.pow x e) = c.residue x ^ e :=
  (c.pow_spec x e).2

/-- The number of a power is the remainder of the power of the number. -/
theorem toNat_pow (x : UInt64) (e : ℕ) : (c.pow x e).toNat = x.toNat ^ e % c.modulus.toNat :=
  c.toNat_eq_mod (c.pow_lt x e) (by rw [c.residue_pow, residue, Nat.cast_pow])

/-- A power is the last reduced word when the power of the residue is minus one. -/
theorem pow_eq_modulus_sub_one_iff (x : UInt64) (e : ℕ) :
    c.pow x e = c.modulus - 1 ↔ c.residue x ^ e = -1 := by
  have hlt : c.modulus - 1 < c.modulus := by
    rw [UInt64.lt_iff_toNat_lt, toNat_modulus_sub_one]
    exact Nat.sub_lt c.modulus_pos Nat.one_pos
  rw [← c.residue_pow, ← c.residue_modulus_sub_one]
  exact ⟨congrArg c.residue, c.eq_of_residue (c.pow_lt _ _) hlt⟩

/-! ### Inverses -/

/-- What is taken for an inverse is the power with exponent `modulus - 2` of a word that does not
vanish. -/
theorem inv_eq_ok {x y : UInt64} (h : c.inv x = .ok y) :
    c.residue x ≠ 0 ∧ y < c.modulus ∧ c.residue y = c.residue x ^ (c.modulus.toNat - 2) := by
  have hexp : (c.modulus - 2).toNat = c.modulus.toNat - 2 := UInt64.toNat_sub_of_le _ _ c.two_le
  rw [inv] at h
  split at h
  · cases h
  · next hzero =>
    obtain rfl := Except.ok.inj h
    refine ⟨fun hx => hzero ?_, c.pow_lt _ _, by rw [c.residue_pow, c.residue_mod, hexp]⟩
    refine c.eq_of_residue (c.mod_modulus_lt x) (UInt64.lt_iff_toNat_lt.2 c.modulus_pos) ?_
    rw [c.residue_mod, hx, Channel.residue]
    simp

/-- For a prime modulus, a word that is not divisible by it has an inverse, and the inverse is
reduced. -/
theorem exists_inv (hq : c.modulus.toNat.Prime) {x : UInt64} (hx : c.residue x ≠ 0) :
    ∃ y, c.inv x = .ok y ∧ y < c.modulus ∧ c.residue y * c.residue x = 1 := by
  have hzero : x % c.modulus ≠ 0 := by
    intro h
    rw [← residue_mod, h] at hx
    exact hx (by simp [residue])
  refine ⟨c.pow (x % c.modulus) (c.modulus - 2).toNat, ?_, c.pow_lt _ _, ?_⟩
  · rw [inv, if_neg hzero]
  · have := Fact.mk hq
    have htwo : (2 : UInt64).toNat = 2 := rfl
    have hsub : (c.modulus - 2).toNat + 1 = c.modulus.toNat - 1 := by
      have := c.two_le_toNat
      rw [UInt64.toNat_sub_of_le _ _ c.two_le, htwo]
      omega
    rw [residue_pow, residue_mod, ← pow_succ, hsub, ZMod.pow_card_sub_one_eq_one hx]

end Channel

end RnsEngine
