import Mathlib.Data.ZMod.Basic
import Mathlib.NumberTheory.Multiplicity
import RnsEngine.Galois.Inverse
import RnsEngine.Proofs.Fold

/-!
# Inverses by Newton's iteration

A Newton step squares the error `1 - k * x` on the circle of words. An odd number is its own inverse
modulo eight, so after five steps the error is a thirty-second power of a multiple of eight, which
is zero: `oddInverse_mul`. The low digits of the result are the inverse modulo every power of two
that is a word, `galoisInverse_spec`, and there is no other (`eq_of_mul_mod_two_pow`).

The checks let through the odd numbers and the powers of two, and no others. What they refuse, and
what is returned without a refusal, is `galoisInverse_outcome`.
-/

namespace RnsEngine

/-! ### The circle of words -/

/-- A word on the circle. -/
def onCircle (x : UInt64) : ZMod (2 ^ 64) := x.toNat

/-- Products of words are taken on the circle. -/
theorem onCircle_mul (x y : UInt64) : onCircle (x * y) = onCircle x * onCircle y := by
  rw [onCircle, UInt64.toNat_mul, ZMod.natCast_mod, Nat.cast_mul, onCircle, onCircle]

/-- So are differences. -/
theorem onCircle_sub (x y : UInt64) : onCircle (x - y) = onCircle x - onCircle y := by
  have hle : y.toNat ≤ 2 ^ 64 := y.toNat_lt.le
  rw [onCircle, UInt64.toNat_sub, ZMod.natCast_mod, Nat.cast_add, Nat.cast_sub hle,
    ZMod.natCast_self, zero_sub, neg_add_eq_sub, onCircle, onCircle]

/-- A Newton step squares the error. -/
theorem error_newtonStep (k x : UInt64) :
    1 - onCircle k * onCircle (newtonStep k x) = (1 - onCircle k * onCircle x) ^ 2 := by
  have htwo : onCircle 2 = 2 := rfl
  rw [newtonStep, onCircle_mul, onCircle_sub, onCircle_mul, htwo]
  ring

/-- After five steps the error is the thirty-second power of what it was. -/
theorem error_oddInverse (k : UInt64) :
    1 - onCircle k * onCircle (oddInverse k) = (1 - onCircle k * onCircle k) ^ 2 ^ 5 := by
  -- carried through the loop: after `i` steps the error has been squared `i` times
  refine fold_carries
    (fun i x => 1 - onCircle k * onCircle x = (1 - onCircle k * onCircle k) ^ 2 ^ i)
    (fun _ _ x => newtonStep k x) (by rw [Nat.pow_zero, pow_one]) fun i _ x hx => ?_
  rw [error_newtonStep, hx, ← pow_mul]
  exact congrArg ((1 - onCircle k * onCircle k) ^ ·) (Nat.pow_succ ..).symm

/-- The thirty-second power of a multiple of eight vanishes on the circle. -/
theorem pow_eq_zero_of_eight_dvd {z : ℤ} (h : 8 ∣ z) : (z : ZMod (2 ^ 64)) ^ 2 ^ 5 = 0 := by
  obtain ⟨w, rfl⟩ := h
  have height : ((8 ^ 2 ^ 5 : ℕ) : ZMod (2 ^ 64)) = 0 :=
    (ZMod.natCast_eq_zero_iff _ _).2 (by decide)
  rw [Nat.cast_pow] at height
  rw [Int.cast_mul, mul_pow]
  exact (congrArg (· * _) height).trans (zero_mul _)

/-- **Odd words** have their inverses on the circle. -/
theorem oddInverse_mul {k : UInt64} (hk : Odd k.toNat) :
    k.toNat * (oddInverse k).toNat ≡ 1 [MOD 2 ^ 64] := by
  have hdvd : (8 : ℤ) ∣ 1 - k.toNat * k.toNat := by
    have h := Int.eight_dvd_sq_sub_one_of_odd ((Int.odd_coe_nat _).2 hk)
    rw [← neg_sub, ← sq]
    exact (dvd_neg (α := ℤ)).2 h
  have herror := error_oddInverse k
  have hzero := pow_eq_zero_of_eight_dvd hdvd
  rw [Int.cast_sub, Int.cast_one, Int.cast_mul, Int.cast_natCast] at hzero
  rw [onCircle, hzero, sub_eq_zero, onCircle, ← Nat.cast_mul, ← Nat.cast_one,
    ZMod.natCast_eq_natCast_iff] at herror
  exact herror.symm

/-! ### Powers of two -/

/-- Odd numbers can be cancelled modulo a power of two. -/
theorem eq_of_mul_mod_two_pow {k x y log : ℕ} (hk : Odd k) (hx : x < 2 ^ log) (hy : y < 2 ^ log)
    (h : k * x ≡ k * y [MOD 2 ^ log]) : x = y := by
  have hcoprime : (2 ^ log).Coprime k := Nat.Coprime.pow_left _ (Nat.coprime_two_left.2 hk)
  exact (Nat.ModEq.cancel_left_of_coprime hcoprime h).eq_of_lt_of_lt hx hy

section PowerOfTwo

variable {k order : UInt64}

/-! ### Checks -/

/-- The check of the number finds the even ones. -/
theorem checkParity_iff : k &&& 1 = 0 ↔ ¬ Odd k.toNat := by
  rw [Nat.not_odd_iff, ← toNat_and_one, ← UInt64.toNat_inj]
  rfl

/-- An order that is no power of two is refused, whatever the number. -/
theorem galoisInverse_of_not_isPowerOfTwo (horder : ¬ order.toNat.isPowerOfTwo) (k : UInt64) :
    galoisInverse k order = .error (.notPowerOfTwo order.toNat) := by
  rw [galoisInverse, if_pos (and_pred_check_iff.2 horder)]

/-- Modulo a power of two an even number is refused. -/
theorem galoisInverse_of_not_odd (horder : order.toNat.isPowerOfTwo) (hk : ¬ Odd k.toNat) :
    galoisInverse k order = .error (.galoisNotCoprime k.toNat order.toNat) := by
  rw [galoisInverse, if_neg fun h => and_pred_check_iff.1 h horder, if_pos (checkParity_iff.2 hk)]

/-- A power of two passes the checks with every odd number. -/
theorem galoisInverse_of_odd (horder : order.toNat.isPowerOfTwo) (hk : Odd k.toNat) :
    galoisInverse k order = .ok (oddInverse k &&& (order - 1)) := by
  rw [galoisInverse, if_neg fun h => and_pred_check_iff.1 h horder,
    if_neg fun h => checkParity_iff.1 h hk]

/-! ### Inverses -/

/-- Every odd number has one inverse below a power of two, which the iteration finds. -/
theorem galoisInverse_spec (horder : order.toNat.isPowerOfTwo) (hk : Odd k.toNat) :
    ∃ x, galoisInverse k order = .ok x ∧
      ∀ y, y < order.toNat ∧ k.toNat * y ≡ 1 [MOD order.toNat] ↔ y = x.toNat := by
  obtain ⟨log, hlog⟩ := id horder
  have hdvd : order.toNat ∣ 2 ^ 64 := by
    rw [hlog]
    refine Nat.pow_dvd_pow 2 (Nat.le_of_lt ((Nat.pow_lt_pow_iff_right (by decide : 1 < 2)).1 ?_))
    exact hlog ▸ order.toNat_lt
  have hlow := toNat_and_pred hlog (oddInverse k)
  have hlt : (oddInverse k).toNat % order.toNat < order.toNat :=
    Nat.mod_lt _ (Nat.pos_of_isPowerOfTwo horder)
  have hone : k.toNat * ((oddInverse k).toNat % order.toNat) ≡ 1 [MOD order.toNat] :=
    ((Nat.mod_modEq _ _).mul_left _).trans ((oddInverse_mul hk).of_dvd hdvd)
  refine ⟨_, galoisInverse_of_odd horder hk, fun y => ?_⟩
  rw [hlow]
  constructor
  · rintro ⟨hy, h⟩
    rw [hlog] at hy hlt hone h ⊢
    exact eq_of_mul_mod_two_pow hk hy hlt (h.trans hone.symm)
  · intro hy
    rw [hy]
    exact ⟨hlt, hone⟩

/-- **Inverses modulo a power of two.** An inverse is returned exactly for an odd number and an
order that is a power of two. Another order is refused first, and then an even number. What is
returned is the only number below the order whose product with the given one is congruent to one,
and zero for the order one. -/
theorem galoisInverse_outcome (k order : UInt64) :
    let outcome := galoisInverse k order
    ((∃ x, outcome = .ok x) ↔ order.toNat.isPowerOfTwo ∧ Odd k.toNat) ∧
      (¬ order.toNat.isPowerOfTwo → outcome = .error (.notPowerOfTwo order.toNat)) ∧
      (order.toNat.isPowerOfTwo → ¬ Odd k.toNat →
        outcome = .error (.galoisNotCoprime k.toNat order.toNat)) ∧
      ∀ x, outcome = .ok x →
        (∀ y, y < order.toNat ∧ k.toNat * y ≡ 1 [MOD order.toNat] ↔ y = x.toNat) ∧
          (order = 1 → x = 0) := by
  intro outcome
  by_cases horder : order.toNat.isPowerOfTwo
  · by_cases hk : Odd k.toNat
    · obtain ⟨x, hx, hunique⟩ := galoisInverse_spec horder hk
      have hok : outcome = .ok x := hx
      rw [hok]
      refine ⟨iff_of_true ⟨x, rfl⟩ ⟨horder, hk⟩, absurd horder, fun _ => absurd hk, ?_⟩
      rintro _ ⟨⟩
      refine ⟨hunique, fun hone => ?_⟩
      have hlt : x.toNat < order.toNat := ((hunique x.toNat).2 rfl).1
      rw [hone] at hlt
      exact UInt64.toNat_inj.1 (Nat.lt_one_iff.1 hlt)
    · have hrefused : outcome = .error (.galoisNotCoprime k.toNat order.toNat) :=
        galoisInverse_of_not_odd horder hk
      rw [hrefused]
      exact ⟨iff_of_false nofun fun h => hk h.2, absurd horder, fun _ _ => rfl, nofun⟩
  · have hrefused : outcome = .error (.notPowerOfTwo order.toNat) :=
      galoisInverse_of_not_isPowerOfTwo horder k
    rw [hrefused]
    exact ⟨iff_of_false nofun fun h => horder h.1, fun _ => rfl, fun h => absurd h horder, nofun⟩

end PowerOfTwo

end RnsEngine
