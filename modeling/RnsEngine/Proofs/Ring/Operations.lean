import RnsEngine.Pointwise
import RnsEngine.Proofs.Ring.Interpolation
import RnsEngine.Ring.Residues

/-!
# Operations on polynomials and on values

Each entrywise operation of the engine is an operation of a ring, `PointwiseOp.eval`. On the
coefficients of polynomials modulo `X ^ n + 1` the corresponding operation is
`PointwiseOp.onPolynomials`: sums and differences are taken coefficient by coefficient, and a
product adds the term of two coefficients at the sum of their indices, or subtracts it where that
sum passes `n`. Taking values turns the one into the other (`values_onPolynomials`). Operations on
polynomials commute with any change of the ring (`map_onPolynomials`).

On reduced words the operation of a channel is the one of the ring of its residues
(`PointwiseOp.apply_spec`), and so it is on reduced tiles (`Tile.zipWith_spec`).
-/

namespace RnsEngine

universe u v

variable {R : Type u} [CommRing R] {n : ℕ}

/-- The product of polynomials, coefficient by coefficient: the terms whose indices add up to that
of the coefficient, less those whose indices add up to `n` more. -/
theorem Negacyclic.product_apply (a b : Fin n → R) (k : Fin n) :
    Negacyclic.product a b k =
      ∑ i, ∑ j, if i.val + j.val = k.val then a i * b j
        else if i.val + j.val = k.val + n then -(a i * b j) else 0 := by
  simp only [product, Finset.sum_apply]
  refine Finset.sum_congr rfl fun i _ => Finset.sum_congr rfl fun j _ => ?_
  have hk := k.isLt
  rw [monomial]
  -- two indices add up to less than `2 * n`, so the exponent passes `n` at most once
  rcases Nat.lt_or_ge (i.val + j.val) n with hlt | hge
  · have hne : i.val + j.val ≠ k.val + n := by omega
    simp only [Nat.mod_eq_of_lt hlt, Nat.div_eq_of_lt hlt, pow_zero, one_mul, if_neg hne,
      eq_comm (a := k.val)]
  · have hmod : (i.val + j.val) % n = i.val + j.val - n := by
      rw [Nat.mod_eq_sub_mod hge, Nat.mod_eq_of_lt (by omega)]
    have hdiv : (i.val + j.val) / n = 1 := Nat.div_eq_of_lt_le (by omega) (by omega)
    have hne : i.val + j.val ≠ k.val := by omega
    have hiff : k.val = i.val + j.val - n ↔ i.val + j.val = k.val + n := by omega
    simp only [hmod, hdiv, pow_one, neg_one_mul, if_neg hne, hiff]

namespace PointwiseOp

/-- The operation of a ring. -/
def eval : PointwiseOp → R → R → R
  | .add, x, y => x + y
  | .sub, x, y => x - y
  | .mul, x, y => x * y

/-- The operation on polynomials modulo `X ^ n + 1`. -/
def onPolynomials : PointwiseOp → (Fin n → R) → (Fin n → R) → Fin n → R
  | .add, a, b => fun k => a k + b k
  | .sub, a, b => fun k => a k - b k
  | .mul, a, b => fun k =>
    ∑ i, ∑ j, if i.val + j.val = k.val then a i * b j
      else if i.val + j.val = k.val + n then -(a i * b j) else 0

/-- The values of what an operation makes of two polynomials are the results of the operation on
their values. -/
theorem values_onPolynomials (hn : 0 < n) {psi : R} (hpsi : psi ^ n = -1) (op : PointwiseOp)
    (a b : Fin n → R) :
    Negacyclic.values psi (op.onPolynomials a b) =
      fun k => op.eval (Negacyclic.values psi a k) (Negacyclic.values psi b k) := by
  cases op with
  | add => exact Negacyclic.values_add psi a b
  | sub => exact Negacyclic.values_sub psi a b
  | mul =>
    have hproduct : mul.onPolynomials a b = Negacyclic.product a b :=
      funext fun k => (Negacyclic.product_apply a b k).symm
    rw [hproduct]
    exact Negacyclic.values_product hn hpsi a b

/-- The operations on polynomials commute with a change of the ring. -/
theorem map_onPolynomials {S : Type v} [CommRing S] (f : R →+* S) (op : PointwiseOp)
    (a b : Fin n → R) (k : Fin n) :
    f (op.onPolynomials a b k) = op.onPolynomials (fun i => f (a i)) (fun i => f (b i)) k := by
  cases op with
  | add => exact map_add f _ _
  | sub => exact map_sub f _ _
  | mul =>
    simp only [onPolynomials, map_sum]
    refine Finset.sum_congr rfl fun i _ => Finset.sum_congr rfl fun j _ => ?_
    split
    · exact map_mul f _ _
    · split
      · rw [map_neg, map_mul]
      · exact map_zero f

end PointwiseOp

/-! ### Words and tiles -/

/-- An operation on reduced words is exact, and its result is reduced. -/
theorem PointwiseOp.apply_spec (op : PointwiseOp) {c : Channel} {x y : UInt64} (hx : x < c.modulus)
    (hy : y < c.modulus) :
    op.apply c x y < c.modulus ∧
      c.residue (op.apply c x y) = op.eval (c.residue x) (c.residue y) := by
  cases op with
  | add => exact ⟨c.add_lt hx hy, c.residue_add hx hy⟩
  | sub => exact ⟨c.sub_lt hx hy, c.residue_sub hx hy⟩
  | mul => exact ⟨c.mul_lt hx hy, c.residue_mul hx hy⟩

/-- Combining two reduced tiles combines their residues. -/
theorem Tile.zipWith_spec {side : ℕ} {c : Channel} {s t : Tile side} (hs : s.Reduced c)
    (ht : t.Reduced c) (op : PointwiseOp) :
    (Tile.zipWith (op.apply c) s t).Reduced c ∧ (Tile.zipWith (op.apply c) s t).residues c =
      fun k => op.eval (s.residues c k) (t.residues c k) := by
  have hword : ∀ k : Fin (side * side), (Tile.zipWith (op.apply c) s t).words.get k =
      op.apply c (s.words.get k) (t.words.get k) := fun k => Vector.getElem_zipWith k.isLt
  refine ⟨fun k => ?_, funext fun k => ?_⟩
  · rw [hword]
    exact (op.apply_spec (hs k) (ht k)).1
  · rw [Tile.residues, hword]
    exact (op.apply_spec (hs k) (ht k)).2

end RnsEngine
