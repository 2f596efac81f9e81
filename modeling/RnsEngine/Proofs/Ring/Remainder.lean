import Mathlib.RingTheory.AdjoinRoot
import RnsEngine.Proofs.Ring.Operations

/-!
# Coefficients of remainders

`Negacyclic` computes with coefficients. Here its operations are put beside those of polynomials:
`Negacyclic.toPolynomial` is the polynomial with given coefficients, and a product or a substitution
of coefficients is the remainder of the product (`toPolynomial_product`) or of the substitution
(`toPolynomial_substitute`) by `X ^ n + 1`.

The residue class of the variable is a root, its `n`-th power is `-1`, and coefficients are
determined by their value there. So laws of evaluation carry over to coefficients; this is how a
substitution of an odd power is seen to respect all operations on polynomials
(`substitute_onPolynomials`).
-/

namespace RnsEngine

universe u v

namespace Negacyclic

open Polynomial

variable {n : ℕ} {R : Type u} [CommRing R]

/-- The polynomial with given coefficients. -/
noncomputable def toPolynomial (a : Fin n → R) : R[X] := ∑ i, C (a i) * X ^ i.val

/-- The coefficients of the polynomial are the given ones. -/
theorem coeff_toPolynomial (a : Fin n → R) (i : Fin n) : (toPolynomial a).coeff i.val = a i := by
  rw [toPolynomial, finsetSum_coeff, Finset.sum_eq_single i]
  · rw [coeff_C_mul_X_pow, if_pos rfl]
  · intro j _ hj
    rw [coeff_C_mul_X_pow, if_neg fun h => hj (Fin.ext h.symm)]
  · intro h
    exact absurd (Finset.mem_univ i) h

/-- Coefficients are determined by the polynomial. -/
theorem toPolynomial_injective {a b : Fin n → R} (h : toPolynomial a = toPolynomial b) : a = b :=
  funext fun i => by rw [← coeff_toPolynomial a, h, coeff_toPolynomial]

/-- Remainders by `X ^ n + 1` are defined. -/
theorem monic_X_pow_add_one (hn : 0 < n) : (X ^ n + 1 : R[X]).Monic :=
  monic_X_pow_add_C (1 : R) hn.ne'

/-- A polynomial of so many coefficients is its own remainder. -/
theorem toPolynomial_modByMonic (hn : 0 < n) (a : Fin n → R) :
    toPolynomial a %ₘ (X ^ n + 1) = toPolynomial a := by
  nontriviality R
  have hdegree : (X ^ n + 1 : R[X]).degree = n := degree_X_pow_add_C hn (1 : R)
  rw [modByMonic_eq_self_iff (monic_X_pow_add_one hn), hdegree]
  exact degree_sum_fin_lt a

/-! ### The class of the variable -/

section Class

variable (n R)

/-- The residue class of the variable modulo `X ^ n + 1`. -/
noncomputable def variableClass : AdjoinRoot (X ^ n + 1 : R[X]) := AdjoinRoot.root _

/-- Its power with the number of coefficients is minus one. -/
theorem variableClass_pow : variableClass n R ^ n = -1 := by
  have hroot := AdjoinRoot.eval₂_root (X ^ n + 1 : R[X])
  rw [eval₂_add, eval₂_X_pow, eval₂_one] at hroot
  exact add_eq_zero_iff_eq_neg.1 hroot

end Class

/-- The class of a polynomial is the value of its coefficients at the class of the variable. -/
theorem mk_toPolynomial (a : Fin n → R) :
    AdjoinRoot.mk (X ^ n + 1) (toPolynomial a) =
      evaluate (variableClass n R) fun i => AdjoinRoot.of _ (a i) := by
  rw [toPolynomial, map_sum, evaluate]
  refine Finset.sum_congr rfl fun i _ => ?_
  rw [map_mul, map_pow, AdjoinRoot.mk_C, AdjoinRoot.mk_X, variableClass]

/-- What has the class of a polynomial with so many coefficients has that polynomial as its
remainder. -/
theorem toPolynomial_eq_modByMonic (hn : 0 < n) {a : Fin n → R} {p : R[X]}
    (h : AdjoinRoot.mk (X ^ n + 1) (toPolynomial a) = AdjoinRoot.mk (X ^ n + 1) p) :
    toPolynomial a = p %ₘ (X ^ n + 1) := by
  rw [← toPolynomial_modByMonic hn a]
  exact modByMonic_eq_of_dvd_sub (monic_X_pow_add_one hn) (AdjoinRoot.mk_eq_mk.1 h)

/-- Coefficients are determined by their value at the class of the variable. -/
theorem eq_of_evaluate_variableClass (hn : 0 < n) {a b : Fin n → R}
    (h : evaluate (variableClass n R) (fun i => AdjoinRoot.of _ (a i)) =
      evaluate (variableClass n R) fun i => AdjoinRoot.of _ (b i)) : a = b := by
  rw [← mk_toPolynomial, ← mk_toPolynomial] at h
  exact toPolynomial_injective
    ((toPolynomial_eq_modByMonic hn h).trans (toPolynomial_modByMonic hn b))

/-! ### Change of the ring -/

section Map

variable {S : Type v} [CommRing S] (f : R →+* S)

/-- A monomial is a monomial over another ring. -/
theorem map_monomial (m : ℕ) (c : R) (k : Fin n) :
    f (monomial n m c k) = monomial n m (f c) k := by
  simp only [monomial]
  split <;> simp

/-- A substitution is one over another ring. -/
theorem map_substitute (e : ℕ) (a : Fin n → R) (k : Fin n) :
    f (substitute e a k) = substitute e (fun i => f (a i)) k := by
  simp only [substitute, Finset.sum_apply, map_sum, map_monomial]

/-- A product is one over another ring. -/
theorem map_product (a b : Fin n → R) (k : Fin n) :
    f (product a b k) = product (fun i => f (a i)) (fun i => f (b i)) k := by
  simp only [product, Finset.sum_apply, map_sum, map_monomial, map_mul]

end Map

/-! ### Remainders -/

/-- The value of a product at the class of the variable is the product of the values. -/
theorem evaluate_variableClass_product (hn : 0 < n) (a b : Fin n → R) :
    evaluate (variableClass n R) (fun i => AdjoinRoot.of _ (product a b i)) =
      evaluate (variableClass n R) (fun i => AdjoinRoot.of _ (a i)) *
        evaluate (variableClass n R) fun i => AdjoinRoot.of _ (b i) := by
  simp only [map_product]
  exact evaluate_product hn (variableClass_pow n R) _ _

/-- The value of a substitution at the class of the variable is the value at its power. -/
theorem evaluate_variableClass_substitute (hn : 0 < n) (e : ℕ) (a : Fin n → R) :
    evaluate (variableClass n R) (fun i => AdjoinRoot.of _ (substitute e a i)) =
      evaluate (variableClass n R ^ e) fun i => AdjoinRoot.of _ (a i) := by
  simp only [map_substitute]
  exact evaluate_substitute hn (variableClass_pow n R) e _

/-- **Products** of coefficients are those of the remainder of the product. -/
theorem toPolynomial_product (hn : 0 < n) (a b : Fin n → R) :
    toPolynomial (product a b) = (toPolynomial a * toPolynomial b) %ₘ (X ^ n + 1) := by
  refine toPolynomial_eq_modByMonic hn ?_
  rw [map_mul, mk_toPolynomial, mk_toPolynomial, mk_toPolynomial, evaluate_variableClass_product hn]

/-- **Substitutions** in coefficients give those of the remainder of the substitution. -/
theorem toPolynomial_substitute (hn : 0 < n) (e : ℕ) (a : Fin n → R) :
    toPolynomial (substitute e a) = (toPolynomial a).comp (X ^ e) %ₘ (X ^ n + 1) := by
  refine toPolynomial_eq_modByMonic hn ?_
  rw [mk_toPolynomial, evaluate_variableClass_substitute hn, evaluate, toPolynomial,
    sum_comp, map_sum]
  refine Finset.sum_congr rfl fun i _ => ?_
  simp only [mul_comp, C_comp, pow_comp, X_comp, map_mul, map_pow, AdjoinRoot.mk_C,
    AdjoinRoot.mk_X, variableClass]

/-! ### Substitution of an odd power -/

/-- Substituting an odd power in a product gives the product of the substitutions. -/
theorem substitute_product (hn : 0 < n) {e : ℕ} (he : Odd e) (a b : Fin n → R) :
    substitute e (product a b) = product (substitute e a) (substitute e b) := by
  have hpow : (variableClass n R ^ e) ^ n = -1 := by
    rw [← pow_mul, Nat.mul_comm, pow_mul, variableClass_pow, he.neg_one_pow]
  refine eq_of_evaluate_variableClass hn ?_
  rw [evaluate_variableClass_substitute hn, evaluate_variableClass_product hn,
    evaluate_variableClass_substitute hn, evaluate_variableClass_substitute hn]
  simp only [map_product]
  exact evaluate_product hn hpow _ _

/-- Substitution respects differences. -/
theorem substitute_sub (e : ℕ) (a b : Fin n → R) :
    substitute e (a - b) = substitute e a - substitute e b := by
  rw [eq_sub_iff_add_eq, ← substitute_add, sub_add_cancel]

/-- **Substitution of an odd power** respects every operation on polynomials. -/
theorem substitute_onPolynomials (hn : 0 < n) {e : ℕ} (he : Odd e) (op : PointwiseOp)
    (a b : Fin n → R) :
    substitute e (op.onPolynomials a b) =
      op.onPolynomials (substitute e a) (substitute e b) := by
  cases op with
  | add => exact substitute_add e a b
  | sub => exact substitute_sub e a b
  | mul =>
    have hproduct : ∀ a b : Fin n → R, PointwiseOp.mul.onPolynomials a b = product a b :=
      fun a b => funext fun k => (product_apply a b k).symm
    rw [hproduct, hproduct, substitute_product hn he]

end Negacyclic

end RnsEngine
