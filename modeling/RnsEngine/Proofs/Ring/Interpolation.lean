import Mathlib.Data.Nat.Factorization.Basic
import RnsEngine.Ring.Negacyclic

/-!
# Values at the odd powers of a root

A polynomial modulo `X ^ n + 1` is determined by its values at the odd powers of a root `psi` with
`psi ^ n = -1`. `Negacyclic.values` are these values, and `Negacyclic.coefficients` are the sums by
which the coefficients are found again, up to a factor `n`. When `n` is a power of two, the cross
terms of either composition are sums of powers one of whose repeated squares is `-1`, and these
vanish (`sum_pow_eq_zero`): `coefficients_values` and `values_coefficients`. This needs neither a
field nor that `-1` differs from `1`.
-/

namespace RnsEngine

namespace Negacyclic

universe u

variable {n : ℕ} {R : Type u} [CommRing R]

/-- The values of a polynomial at the odd powers of a root. -/
def values (psi : R) (a : Fin n → R) : Fin n → R :=
  fun k => ∑ m, a m * psi ^ (m.val * (2 * k.val + 1))

/-- The sums of values that lead back to the coefficients; the root is the inverse one. -/
def coefficients (phi : R) (a : Fin n → R) : Fin n → R :=
  fun m => ∑ k, a k * phi ^ (m.val * (2 * k.val + 1))

/-- The values are those of evaluation. -/
theorem values_apply (psi : R) (a : Fin n → R) (k : Fin n) :
    values psi a k = evaluate (psi ^ (2 * k.val + 1)) a := by
  rw [values, evaluate]
  refine Finset.sum_congr rfl fun m _ => ?_
  rw [← pow_mul, Nat.mul_comm]

/-- The odd powers of the root are roots as well. -/
theorem odd_pow_pow {psi : R} (hpsi : psi ^ n = -1) (k : ℕ) : (psi ^ (2 * k + 1)) ^ n = -1 := by
  rw [← pow_mul, Nat.mul_comm, pow_mul, hpsi, Odd.neg_one_pow ⟨k, rfl⟩]

/-- The inverse of a root is a root. -/
theorem inverse_pow {psi phi : R} (hpsi : psi ^ n = -1) (hphi : phi * psi = 1) : phi ^ n = -1 := by
  have hmul : phi ^ n * psi ^ n = 1 := by rw [← mul_pow, hphi, one_pow]
  rw [hpsi, mul_neg_one] at hmul
  exact neg_eq_iff_eq_neg.1 hmul

/-- The values of a product are the products of the values. -/
theorem values_product (hn : 0 < n) {psi : R} (hpsi : psi ^ n = -1) (a b : Fin n → R) :
    values psi (product a b) = values psi a * values psi b := by
  funext k
  rw [Pi.mul_apply, values_apply, values_apply, values_apply,
    evaluate_product hn (odd_pow_pow hpsi k)]

/-- The values of a sum are the sums of the values. -/
theorem values_add (psi : R) (a b : Fin n → R) :
    values psi (a + b) = values psi a + values psi b := by
  funext k
  simp [values, add_mul, Finset.sum_add_distrib]

/-- The values of a difference are the differences of the values. -/
theorem values_sub (psi : R) (a b : Fin n → R) :
    values psi (a - b) = values psi a - values psi b := by
  funext k
  simp [values, sub_mul, Finset.sum_sub_distrib]

/-- The values of a multiple are the multiples of the values. -/
theorem values_mul_left (psi r : R) (a : Fin n → R) :
    values psi (fun m => r * a m) = fun k => r * values psi a k := by
  funext k
  simp [values, mul_assoc, Finset.mul_sum]

/-! ### Orthogonality -/

section Orthogonality

variable {psi phi : R} {log : ℕ}

/-- A sum of so many powers vanishes when one of the repeated squares is minus one. -/
theorem sum_pow_eq_zero {x : R} {i : ℕ} (hx : x ^ 2 ^ i = -1) :
    ∀ {log : ℕ}, i < log → ∑ k ∈ Finset.range (2 ^ log), x ^ k = 0
  | log + 1, hi => by
    -- the upper half of the sum is the lower half, times the last square
    have hhalves : ∑ k ∈ Finset.range (2 ^ (log + 1)), x ^ k =
        (∑ k ∈ Finset.range (2 ^ log), x ^ k) * (1 + x ^ 2 ^ log) := by
      rw [pow_succ, Nat.mul_two, Finset.sum_range_add, mul_add, mul_one, Finset.sum_mul]
      simp only [pow_add, mul_comm (x ^ 2 ^ log)]
    rw [hhalves]
    rcases Nat.lt_succ_iff_lt_or_eq.1 hi with hlt | rfl
    · rw [sum_pow_eq_zero hx hlt, zero_mul]
    · rw [hx, add_neg_cancel, mul_zero]

/-- A power of a quotient of two different powers of the root is minus one. -/
theorem exists_pow_quotient (hpsi : psi ^ 2 ^ log = -1) (hphi : phi * psi = 1) {u v : ℕ}
    (hu : u < 2 ^ log) (huv : v < u) :
    ∃ i < log, ((psi ^ u * phi ^ v) ^ 2) ^ 2 ^ i = -1 := by
  -- the difference of the exponents is an odd multiple of a power of two
  obtain ⟨e, m, hm, hsub⟩ := Nat.exists_eq_two_pow_mul_odd (Nat.sub_ne_zero_of_lt huv)
  have hpos : 0 < m := hm.pos
  have hlt : 2 ^ e < 2 ^ log := by
    calc 2 ^ e ≤ 2 ^ e * m := Nat.le_mul_of_pos_right _ hpos
      _ = u - v := hsub.symm
      _ < 2 ^ log := by omega
  have he : e < log := (Nat.pow_lt_pow_iff_right Nat.one_lt_two).1 hlt
  refine ⟨log - 1 - e, by omega, ?_⟩
  have hu' : u = 2 ^ e * m + v := by omega
  have hquotient : psi ^ u * phi ^ v = psi ^ (2 ^ e * m) := by
    rw [hu', pow_add, mul_assoc, ← mul_pow, mul_comm psi phi, hphi, one_pow, mul_one]
  have hexp : 2 ^ e * m * (2 * 2 ^ (log - 1 - e)) = 2 ^ log * m := by
    have hlog : 2 ^ log = 2 ^ e * (2 * 2 ^ (log - 1 - e)) := by
      rw [← pow_succ', ← pow_add]
      congr 1
      omega
    rw [hlog]
    ring
  rw [hquotient, ← pow_mul, ← pow_mul, hexp, pow_mul, hpsi, hm.neg_one_pow]

/-- The powers of a quotient of two different even powers of the root sum to zero. -/
theorem sum_pow_quotient (hpsi : psi ^ 2 ^ log = -1) (hphi : phi * psi = 1) {u v : ℕ}
    (hu : u < 2 ^ log) (hv : v < 2 ^ log) (huv : u ≠ v) :
    ∑ k : Fin (2 ^ log), ((psi ^ u * phi ^ v) ^ 2) ^ k.val = 0 := by
  obtain ⟨i, hi, hpow⟩ : ∃ i < log, ((psi ^ u * phi ^ v) ^ 2) ^ 2 ^ i = -1 := by
    rcases Nat.lt_or_gt_of_ne huv with hlt | hlt
    · -- the two roots are inverse to each other, and so change places
      rw [mul_comm (psi ^ u)]
      exact exists_pow_quotient (inverse_pow hpsi hphi) (mul_comm phi psi ▸ hphi) hv hlt
    · exact exists_pow_quotient hpsi hphi hu hlt
  rw [← Finset.sum_range (fun k => ((psi ^ u * phi ^ v) ^ 2) ^ k)]
  exact sum_pow_eq_zero hpow hi

/-- Taking values and then coefficients multiplies by the number of coefficients. -/
theorem coefficients_values (hn : n = 2 ^ log) (hpsi : psi ^ n = -1) (hphi : phi * psi = 1)
    (a : Fin n → R) (m : Fin n) :
    coefficients phi (values psi a) m = n * a m := by
  subst hn
  simp only [coefficients, values, Finset.sum_mul]
  rw [Finset.sum_comm, Finset.sum_eq_single m]
  · have hterm : ∀ k : Fin (2 ^ log), a m * psi ^ (m.val * (2 * k.val + 1)) *
        phi ^ (m.val * (2 * k.val + 1)) = a m := by
      intro k
      rw [mul_assoc, ← mul_pow, mul_comm psi, hphi, one_pow, mul_one]
    simp [hterm]
  · intro m' _ hm
    have hterm : ∀ k : Fin (2 ^ log), a m' * psi ^ (m'.val * (2 * k.val + 1)) *
        phi ^ (m.val * (2 * k.val + 1)) =
          a m' * (psi ^ m'.val * phi ^ m.val) * ((psi ^ m'.val * phi ^ m.val) ^ 2) ^ k.val := by
      intro k
      ring
    have hval : m'.val ≠ m.val := fun h => hm (Fin.ext h)
    rw [Finset.sum_congr rfl fun k _ => hterm k, ← Finset.mul_sum,
      sum_pow_quotient hpsi hphi m'.isLt m.isLt hval, mul_zero]
  · intro hm
    exact absurd (Finset.mem_univ m) hm

/-- Taking coefficients and then values does so as well. -/
theorem values_coefficients (hn : n = 2 ^ log) (hpsi : psi ^ n = -1) (hphi : phi * psi = 1)
    (a : Fin n → R) (k : Fin n) :
    values psi (coefficients phi a) k = n * a k := by
  subst hn
  -- in a product of powers with odd exponents one factor of either root cancels
  have hodd : ∀ k k' m : ℕ, phi ^ (m * (2 * k' + 1)) * psi ^ (m * (2 * k + 1)) =
      ((psi ^ k * phi ^ k') ^ 2) ^ m := by
    intro k k' m
    calc phi ^ (m * (2 * k' + 1)) * psi ^ (m * (2 * k + 1)) =
          ((psi ^ k * phi ^ k') ^ 2) ^ m * (phi * psi) ^ m := by ring
      _ = ((psi ^ k * phi ^ k') ^ 2) ^ m := by rw [hphi, one_pow, mul_one]
  simp only [coefficients, values, Finset.sum_mul]
  rw [Finset.sum_comm, Finset.sum_eq_single k]
  · have hterm : ∀ m : Fin (2 ^ log), a k * phi ^ (m.val * (2 * k.val + 1)) *
        psi ^ (m.val * (2 * k.val + 1)) = a k := by
      intro m
      rw [mul_assoc, ← mul_pow, hphi, one_pow, mul_one]
    simp [hterm]
  · intro k' _ hk
    have hval : k.val ≠ k'.val := fun h => hk (Fin.ext h.symm)
    simp only [mul_assoc, hodd]
    rw [← Finset.mul_sum, sum_pow_quotient hpsi hphi k.isLt k'.isLt hval, mul_zero]
  · intro hk
    exact absurd (Finset.mem_univ k) hk

end Orthogonality

end Negacyclic

end RnsEngine
