import Mathlib.Algebra.BigOperators.Fin
import Mathlib.Algebra.BigOperators.Pi
import Mathlib.Algebra.BigOperators.Ring.Finset
import Mathlib.Tactic.Ring

/-!
# Polynomials modulo `X ^ n + 1`

A polynomial modulo `X ^ n + 1` is given by its `n` coefficients. The power `X ^ m` is, up to a
sign, one of the first `n`: `monomial` places a coefficient at `m % n` and negates it once for
every time that the exponent passes `n`. Products and substitutions of a power for `X` are sums
of such monomials.

At a point whose `n`-th power is `-1` evaluation respects all of this: `evaluate_monomial`,
`evaluate_product` and `evaluate_substitute`. `substitute_substitute` composes two substitutions,
the second one odd.
-/

namespace RnsEngine

namespace Negacyclic

universe u

variable {n : ℕ} {R : Type u} [CommRing R]

/-- The coefficients of `c * X ^ m`. -/
def monomial (n m : ℕ) (c : R) : Fin n → R :=
  fun k => if k.val = m % n then (-1) ^ (m / n) * c else 0

/-- The value of a polynomial at a point. -/
def evaluate (x : R) (a : Fin n → R) : R := ∑ i, a i * x ^ i.val

/-- The product of two polynomials. -/
def product (a b : Fin n → R) : Fin n → R :=
  ∑ i, ∑ j, monomial n (i.val + j.val) (a i * b j)

/-- The polynomial with `X ^ e` in the place of `X`. -/
def substitute (e : ℕ) (a : Fin n → R) : Fin n → R :=
  ∑ i, monomial n (i.val * e) (a i)

/-! ### Evaluation -/

/-- Evaluation is additive. -/
theorem evaluate_add (x : R) (a b : Fin n → R) :
    evaluate x (a + b) = evaluate x a + evaluate x b := by
  simp [evaluate, add_mul, Finset.sum_add_distrib]

/-- Evaluation takes sums to sums. -/
theorem evaluate_sum {ι : Type} (x : R) (s : Finset ι) (f : ι → Fin n → R) :
    evaluate x (∑ i ∈ s, f i) = ∑ i ∈ s, evaluate x (f i) := by
  simp only [evaluate, Finset.sum_apply, Finset.sum_mul]
  exact Finset.sum_comm

/-- A monomial has the value of its power. -/
theorem evaluate_monomial (hn : 0 < n) {x : R} (hx : x ^ n = -1) (m : ℕ) (c : R) :
    evaluate x (monomial n m c) = c * x ^ m := by
  have hm : m % n < n := Nat.mod_lt _ hn
  rw [evaluate, Finset.sum_eq_single ⟨m % n, hm⟩]
  · rw [monomial, if_pos rfl]
    conv_rhs => rw [← Nat.div_add_mod m n, pow_add, pow_mul, hx]
    ring
  · intro k _ hk
    rw [monomial, if_neg (fun h => hk (Fin.ext h)), zero_mul]
  · intro h
    exact absurd (Finset.mem_univ _) h

/-- The value of a product is the product of the values. -/
theorem evaluate_product (hn : 0 < n) {x : R} (hx : x ^ n = -1) (a b : Fin n → R) :
    evaluate x (product a b) = evaluate x a * evaluate x b := by
  simp only [product, evaluate_sum, evaluate_monomial hn hx]
  rw [evaluate, evaluate, Finset.sum_mul_sum]
  refine Finset.sum_congr rfl fun i _ => Finset.sum_congr rfl fun j _ => ?_
  rw [pow_add]
  ring

/-- Substitution moves the point of evaluation. -/
theorem evaluate_substitute (hn : 0 < n) {x : R} (hx : x ^ n = -1) (e : ℕ) (a : Fin n → R) :
    evaluate x (substitute e a) = evaluate (x ^ e) a := by
  simp only [substitute, evaluate_sum, evaluate_monomial hn hx]
  rw [evaluate]
  refine Finset.sum_congr rfl fun i _ => ?_
  rw [← pow_mul, Nat.mul_comm]

/-! ### Substitution -/

/-- A monomial is additive in its coefficient. -/
theorem monomial_add (m : ℕ) (c d : R) :
    monomial n m (c + d) = monomial n m c + monomial n m d := by
  funext k
  simp only [monomial, Pi.add_apply]
  split <;> ring

/-- The zero monomial has no coefficients. -/
theorem monomial_zero (m : ℕ) : monomial n m (0 : R) = 0 := by
  funext k
  simp [monomial]

/-- Passing `n` once negates. -/
theorem monomial_add_left (hn : 0 < n) (m : ℕ) (c : R) :
    monomial n (m + n) c = -monomial n m c := by
  funext k
  simp only [monomial, Pi.neg_apply, Nat.add_mod_right, Nat.add_div_right m hn, pow_succ]
  split <;> ring

/-- Passing `n` so many times negates so often. -/
theorem monomial_add_mul (hn : 0 < n) (m t : ℕ) (c : R) :
    monomial n (m + n * t) c = monomial n m ((-1) ^ t * c) := by
  induction t with
  | zero => simp
  | succ t ih =>
    rw [Nat.mul_succ, ← Nat.add_assoc, monomial_add_left hn, ih]
    funext k
    simp only [monomial, Pi.neg_apply, pow_succ]
    split <;> ring

/-- Substitution is additive. -/
theorem substitute_add (e : ℕ) (a b : Fin n → R) :
    substitute e (a + b) = substitute e a + substitute e b := by
  simp [substitute, monomial_add, Finset.sum_add_distrib]

/-- Substitution takes sums to sums. -/
theorem substitute_sum {ι : Type} (e : ℕ) (s : Finset ι) (f : ι → Fin n → R) :
    substitute e (∑ i ∈ s, f i) = ∑ i ∈ s, substitute e (f i) := by
  classical
  induction s using Finset.induction_on with
  | empty => simp [substitute, monomial_zero]
  | insert i s hi ih => rw [Finset.sum_insert hi, Finset.sum_insert hi, substitute_add, ih]

/-- Substituting an odd power in a monomial multiplies its exponent. -/
theorem substitute_monomial (hn : 0 < n) {e : ℕ} (he : Odd e) (m : ℕ) (c : R) :
    substitute e (monomial n m c) = monomial n (m * e) c := by
  have hm : m % n < n := Nat.mod_lt _ hn
  rw [substitute, Finset.sum_eq_single ⟨m % n, hm⟩]
  · have hexp : m * e = m % n * e + n * (m / n * e) := by
      conv_lhs => rw [← Nat.mod_add_div m n]
      rw [Nat.add_mul, Nat.mul_assoc]
    have hsign : ((-1 : R) ^ (m / n)) ^ e = (-1) ^ (m / n) := by
      rw [← pow_mul, Nat.mul_comm, pow_mul, he.neg_one_pow]
    rw [hexp, monomial_add_mul hn, pow_mul, hsign]
    simp [monomial]
  · intro k _ hk
    rw [monomial, if_neg (fun h => hk (Fin.ext h)), monomial_zero]
  · intro h
    exact absurd (Finset.mem_univ _) h

/-- Two substitutions make one, when the second is odd. -/
theorem substitute_substitute (hn : 0 < n) {e : ℕ} (he : Odd e) (d : ℕ) (a : Fin n → R) :
    substitute e (substitute d a) = substitute (d * e) a := by
  rw [substitute.eq_def d, substitute_sum, substitute]
  refine Finset.sum_congr rfl fun i _ => ?_
  rw [substitute_monomial hn he, Nat.mul_assoc]

end Negacyclic

end RnsEngine
