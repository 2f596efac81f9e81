import Mathlib.Data.ZMod.Basic
import RnsEngine.Conversion.ModInverse

/-!
# Inverses by Euclid's algorithm

Every remainder of the algorithm is congruent to the multiple of the number that its coefficient
says (`cast_lastRemainder`). What `modInverse?` finds is therefore the reduced inverse. The last
remainder is the greatest common divisor, so that one is found wherever there is any
(`modInverse?_eq_none_iff`).
-/

namespace RnsEngine

/-- The last remainder is its coefficient times the number when the first two are. -/
theorem cast_lastRemainder {m : ℕ} {x : ZMod m} (fuel : ℕ) :
    ∀ {r s : ℕ} {a b : ℤ}, (r : ZMod m) = a * x → (s : ZMod m) = b * x →
      ((lastRemainder fuel r s a b).1 : ZMod m) = (lastRemainder fuel r s a b).2 * x := by
  induction fuel with
  | zero =>
    intro r s a b hr _
    exact hr
  | succ fuel ih =>
    intro r s a b hr hs
    unfold lastRemainder
    split
    · exact hr
    · refine ih hs ?_
      -- the next remainder is what the quotient leaves of the one before
      have hdiv : ((r % s : ℕ) : ZMod m) = r - (r / s : ℕ) * s := by
        rw [eq_sub_iff_add_eq, ← Nat.cast_mul, ← Nat.cast_add, Nat.mul_comm, Nat.mod_add_div]
      rw [hdiv, hr, hs, Int.cast_sub, Int.cast_mul, Int.cast_natCast, sub_mul, mul_assoc]

/-- An inverse that is found is reduced and has the product one. -/
theorem modInverse?_spec {x m y : ℕ} (hm : 0 < m) (h : modInverse? x m = some y) :
    y < m ∧ (y : ZMod m) * x = 1 := by
  have hlast := cast_lastRemainder (x := (x : ZMod m)) (m + 1) (r := m) (s := x % m) (a := 0)
    (b := 1) (by simp) (by simp)
  unfold modInverse? at h
  generalize lastRemainder (m + 1) m (x % m) 0 1 = last at h hlast
  obtain ⟨r, a⟩ := last
  simp only at h hlast
  split at h
  · next hone =>
    obtain rfl := Option.some.inj h
    have hnonneg : 0 ≤ a % (m : ℤ) := Int.emod_nonneg a (Int.natCast_ne_zero.2 (Nat.ne_of_gt hm))
    have hlt : a % (m : ℤ) < m := Int.emod_lt_of_pos a (Int.natCast_pos.2 hm)
    refine ⟨(Int.toNat_lt hnonneg).2 hlt, ?_⟩
    rw [← Int.cast_natCast, Int.toNat_of_nonneg hnonneg, ZMod.intCast_mod, ← hlast, hone,
      Nat.cast_one]
  · cases h

/-- The last remainder is the greatest common divisor, with fuel for every remainder to come. -/
theorem fst_lastRemainder (fuel : ℕ) :
    ∀ {r s : ℕ} {a b : ℤ}, s < fuel → (lastRemainder fuel r s a b).1 = Nat.gcd r s := by
  induction fuel with
  | zero => exact fun hs => absurd hs (Nat.not_lt_zero _)
  | succ fuel ih =>
    intro r s a b hs
    unfold lastRemainder
    split
    · next hzero => rw [hzero, Nat.gcd_zero_right]
    · next hne =>
      have hlt : r % s < s := Nat.mod_lt r (Nat.pos_of_ne_zero hne)
      rw [ih (Nat.lt_of_lt_of_le hlt (Nat.le_of_lt_succ hs)), Nat.gcd_comm r s, Nat.gcd_rec s r,
        Nat.gcd_comm]

/-- No inverse is found exactly of the numbers with a common factor. -/
theorem modInverse?_eq_none_iff {x m : ℕ} (hm : 0 < m) :
    modInverse? x m = none ↔ ¬ Nat.Coprime x m := by
  have hlast : (lastRemainder (m + 1) m (x % m) 0 1).1 = Nat.gcd x m := by
    rw [fst_lastRemainder _ (Nat.lt_succ_of_lt (Nat.mod_lt x hm)), Nat.gcd_comm, ← Nat.gcd_rec,
      Nat.gcd_comm]
  simp [modInverse?, hlast, Nat.Coprime]

end RnsEngine
