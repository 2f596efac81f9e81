import Mathlib.Algebra.BigOperators.ModEq
import Mathlib.NumberTheory.Fermat

/-!
# Moduli that have a root

A root whose power with exponent `2 ^ k` is `-1` need not belong to a prime. An odd number that has
one is still like a prime as far as powers of the root go: its prime factors, and so the number
itself, leave the remainder one on division by the order `2 ^ (k + 1)` of the root
(`modEq_one_of_dvd`). The power with exponent `q - 2` is therefore the inverse of the root modulo
every odd number `q` (`pow_sub_two_mul_self`).
-/

namespace RnsEngine

/-- An odd number that divides `a ^ 2 ^ k + 1` leaves the remainder one on division by
`2 ^ (k + 1)`, as its prime factors do. -/
theorem modEq_one_of_dvd {a k q : ℕ} (hodd : Odd q) (h : q ∣ a ^ 2 ^ k + 1) :
    q ≡ 1 [MOD 2 ^ (k + 1)] := by
  have hfactor : ∀ p ∈ q.primeFactorsList, p ≡ 1 [MOD 2 ^ (k + 1)] := by
    intro p hp
    have hprime := Nat.prime_of_mem_primeFactorsList hp
    have hdvd := Nat.dvd_of_mem_primeFactorsList hp
    have htwo : p ≠ 2 := by
      rintro rfl
      exact hodd.not_two_dvd_nat hdvd
    obtain ⟨m, rfl⟩ := Nat.pow_pow_add_primeFactors_one_lt hprime htwo (hdvd.trans h)
    exact Nat.mul_modulus_add_modEq_iff.2 rfl
  have hprod := Nat.ModEq.listProd_one hfactor
  rwa [Nat.prod_primeFactorsList hodd.pos.ne'] at hprod

/-- Modulo an odd number, the power of a root with the exponent of a prime is one. -/
theorem pow_pred_eq_one {q k : ℕ} (hodd : Odd q) {x : ZMod q} (hx : x ^ 2 ^ k = -1) :
    x ^ (q - 1) = 1 := by
  have : NeZero q := ⟨hodd.pos.ne'⟩
  have hdvd : q ∣ x.val ^ 2 ^ k + 1 := by
    rw [← ZMod.natCast_eq_zero_iff, Nat.cast_add, Nat.cast_pow, ZMod.natCast_zmod_val, hx,
      Nat.cast_one, neg_add_cancel]
  obtain ⟨m, hm⟩ := (Nat.modEq_iff_dvd' hodd.pos).1 (modEq_one_of_dvd hodd hdvd).symm
  rw [hm, pow_mul, pow_succ, pow_mul, hx, neg_one_sq, one_pow]

/-- Modulo an odd number, the power that inverts modulo a prime inverts a root. -/
theorem pow_sub_two_mul_self {q k : ℕ} (hodd : Odd q) (hq : 2 ≤ q) {x : ZMod q}
    (hx : x ^ 2 ^ k = -1) : x ^ (q - 2) * x = 1 := by
  have hexp : q - 2 + 1 = q - 1 := by omega
  rw [← pow_succ, hexp, pow_pred_eq_one hodd hx]

end RnsEngine
