import RnsEngine.Proofs.Channel.PowerLoop
import RnsEngine.Proofs.Ring.Interpolation
import RnsEngine.Proofs.Transform.Guarded
import RnsEngine.Proofs.Twiddle.Entries

/-!
# The cyclic transform of a lane

A derived table belongs to a base, which is the root that it was derived from or its inverse
(`Direction.IsBase`), and holds its powers (`Table.Based`); modulo a prime every table that is
derived has a base (`Table.exists_based`). The base to the power of twice the side is the root of a
lane, and the transform of a lane takes its words to their sums with the powers of this root, place
by place. What the second buffer held does not show, and the transform with guarded indices and
words does not give up (`Lanes.cyclicDft_eq_sum`).
-/

namespace RnsEngine

/-- The word that the factors of a direction are powers of: the root, or a word that inverts it. -/
def Direction.IsBase (c : Channel) (psi : UInt64) : Direction → UInt64 → Prop
  | .forward, base => base = psi % c.modulus
  | .inverse, base =>
    c.inv (psi % c.modulus) = .ok base ∧ psi.toNat * base.toNat % c.modulus.toNat = 1

variable {g : Geometry} {c : Channel} {t : Table}

namespace Table

variable {psi : UInt64}

/-- A table holds the powers of a base that belongs to a root in a direction, and the base is a root
of unity itself. -/
structure Based (t : Table) (g : Geometry) (c : Channel) (psi : UInt64) (direction : Direction)
    (base : UInt64) : Prop where
  base_lt : base < c.modulus
  isBase : direction.IsBase c psi base
  pow_ringDim : c.residue base ^ g.ringDim = -1
  exists_powers : ∀ h : t.Covers g, ∃ scale, t.Powers h c (c.residue base) scale

/-- A forward table holds the powers of its root. -/
theorem exists_based_forward (ht : ofRoot g c psi .forward = .ok t) :
    ∃ base, t.Based g c psi .forward base := by
  obtain ⟨hroot, -, hpowers⟩ := ofRoot_forward_eq_ok ht
  rw [← c.residue_mod] at hroot hpowers
  exact ⟨_, c.mod_modulus_lt psi, rfl, hroot, fun h => ⟨1, hpowers h⟩⟩

/-- Modulo a prime an inverse table holds the powers of the inverse of its root. -/
theorem exists_based_inverse (hq : c.modulus.toNat.Prime)
    (ht : ofRoot g c psi .inverse = .ok t) : ∃ base, t.Based g c psi .inverse base := by
  have := Fact.mk hq
  have hroot := pow_eq_neg_one_of_ofRoot ht
  obtain ⟨-, -, hpowers⟩ := ofRoot_inverse_eq_ok ht
  obtain ⟨base, hinv, hlt, hmul⟩ := c.exists_inv hq (residue_ne_zero hroot)
  -- the power that is taken for the inverse is one, as the modulus is prime
  obtain ⟨-, -, hpow⟩ := c.inv_eq_ok hinv
  rw [c.residue_mod] at hmul hpow
  rw [← hpow] at hpowers
  exact ⟨base, hlt, ⟨hinv, c.mul_mod_eq_one hmul⟩, Negacyclic.inverse_pow hroot hmul,
    fun h => ⟨_, hpowers h⟩⟩

/-- A table that is derived has a base, modulo a prime if it is to lead back. -/
theorem exists_based {direction : Direction} (ht : ofRoot g c psi direction = .ok t)
    (hq : direction = .inverse → c.modulus.toNat.Prime) :
    ∃ base, t.Based g c psi direction base :=
  match direction with
  | .forward => exists_based_forward ht
  | .inverse => exists_based_inverse (hq rfl) ht

end Table

namespace Lanes

/-- The words of a lane that is transformed are the remainders of sums. -/
theorem toNat_spectrum {h : t.Covers g} {base : UInt64} {scale : ZMod c.modulus.toNat}
    (ht : t.Powers h c (c.residue base) scale) (hbase : c.residue base ^ g.ringDim = -1)
    {lane : Vector UInt64 g.side} (hlane : ∀ x ∈ lane, x < c.modulus) (k : Fin g.side) :
    ((spectrum c t h lane).get k).toNat =
      (∑ n : Fin g.side, (lane.get n).toNat * (base.toNat ^ (2 * g.side)) ^ (n.val * k.val)) %
        c.modulus.toNat := by
  obtain ⟨hlt, hsum⟩ := spectrum_spec ht hbase (fun _ hk => hlane _ (Vector.getElem_mem hk)) k
  have hcast : c.residue ((spectrum c t h lane).get k) =
      ((∑ n : Fin g.side, (lane.get n).toNat *
        (base.toNat ^ (2 * g.side)) ^ (n.val * k.val) : ℕ) : ZMod c.modulus.toNat) := by
    rw [hsum, Nat.cast_sum]
    refine Finset.sum_congr rfl fun n _ => ?_
    rw [Nat.mul_assoc, pow_mul, Nat.cast_mul, Nat.cast_pow, Nat.cast_pow]
    rfl
  exact c.toNat_eq_mod hlt hcast

/-- **The cyclic transform of a lane.** A table that is derived from a root, modulo a prime if it is
to lead back, has as its base the root or its inverse, and the base to the power `2 * side` is the
root `w` of a lane. A lane of reduced words is replaced by the remainders of the sums of its words
times `w ^ (n * k)`, in natural order, in both buffers and whatever the second buffer held. On the
way no index is out of range and no word fails to be reduced. -/
theorem cyclicDft_eq_sum (g : Geometry) (c : Channel) (psi : UInt64) (direction : Direction)
    {t : Table} (ht : Table.ofRoot g c psi direction = .ok t)
    (hq : direction = .inverse → c.modulus.toNat.Prime) :
    ∃ base : UInt64, base < c.modulus ∧ Direction.IsBase c psi direction base ∧
      ∃ h : t.Covers g, ∀ lane : Vector UInt64 g.side, (∀ x ∈ lane, x < c.modulus) →
        ∃ result : Vector UInt64 g.side,
          (∀ permuted, cyclicDft c t h ⟨lane, permuted⟩ = ⟨result, result⟩ ∧
            cyclicDftGuarded c t ⟨lane, permuted⟩ = some ⟨result, result⟩) ∧
          ∀ k : Fin g.side, (result.get k).toNat =
            (∑ n : Fin g.side, (lane.get n).toNat *
              (base.toNat ^ (2 * g.side)) ^ (n.val * k.val)) % c.modulus.toNat := by
  have h : t.Covers g := (Table.fits_of_ofRoot ht).covers
  obtain ⟨base, hbased⟩ := Table.exists_based ht hq
  obtain ⟨scale, hpowers⟩ := hbased.exists_powers h
  refine ⟨base, hbased.base_lt, hbased.isBase, h, fun lane hlane =>
    ⟨spectrum c t h lane, fun permuted => ?_, toNat_spectrum hpowers hbased.pow_ringDim hlane⟩⟩
  have hrun : cyclicDft c t h ⟨lane, permuted⟩ = _ := cyclicDft_eq _
  exact ⟨hrun, (cyclicDftGuarded_eq hpowers.read_lt hlane).trans (congrArg some hrun)⟩

/-- The inverse of `19` modulo `97` is `46`. A lane of four words is transformed with the powers of
`46 ^ 8`, over a second buffer full of other words. -/
theorem cyclicDft_eq_sum_ninety_seven :
    ∃ (g : Geometry) (c : Channel) (t : Table) (h : t.Covers g)
        (lane result : Vector UInt64 g.side),
      c.modulus.toNat.Prime ∧ Table.ofRoot g c 19 .inverse = .ok t ∧
      lane.toList = [1, 2, 3, 4] ∧ (∀ x ∈ lane, x < c.modulus) ∧
      cyclicDft c t h ⟨lane, Vector.replicate _ 96⟩ = ⟨result, result⟩ ∧
      ∀ k : Fin g.side, k.val = 1 → (result.get k).toNat = 51 := by
  let g : Geometry := ⟨2, 1, by decide, by decide, by decide⟩
  let c : Channel := ⟨97, Barrett.ofModulus 97, by decide, by decide, rfl⟩
  have hprime : c.modulus.toNat.Prime := by
    have hvalue : c.modulus.toNat = 97 := rfl
    rw [hvalue]
    norm_num
  have ht : Table.ofRoot g c 19 .inverse = .ok (Table.ofFactors g c .inverse 46 91) := by
    decide +kernel
  have hinv : c.inv (19 % c.modulus) = .ok 46 := by decide +kernel
  obtain ⟨base, -, ⟨hbase, -⟩, h, hrun⟩ :=
    cyclicDft_eq_sum g c 19 .inverse ht fun _ => hprime
  obtain rfl : (46 : UInt64) = base := Except.ok.inj (hinv.symm.trans hbase)
  have hlane : ∀ x ∈ (#v[1, 2, 3, 4] : Vector UInt64 4), x < (97 : UInt64) := by simp
  obtain ⟨result, hresult, hsum⟩ := hrun #v[1, 2, 3, 4] hlane
  refine ⟨g, c, _, h, _, result, hprime, ht, rfl, hlane, (hresult _).1, fun k hk => ?_⟩
  obtain rfl : k = ⟨1, by decide⟩ := Fin.ext hk
  exact (hsum _).trans (by decide +kernel)

end Lanes

end RnsEngine
