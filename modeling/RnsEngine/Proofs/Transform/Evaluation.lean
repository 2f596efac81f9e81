import Mathlib.Data.Fintype.BigOperators
import RnsEngine.Proofs.Ring.Interpolation
import RnsEngine.Proofs.Transform.Passes

/-!
# The transforms as sums

With a table of powers of a root whose power with the ring dimension is minus one, either
transform of a tile is a sum over all of its entries. The coefficient with flat index `n` enters
the value with flat index `k` with the power `n * (2 * k + 1)` of the root
(`Datapath.evaluate_spec`), and the other way round (`Datapath.interpolate_spec`). Both rest on the
same splitting of that exponent along rows and columns (`pow_position`): the twist, the columns, the
factors between the passes and the rows contribute one part each.

`Datapath.forward_transform_eq_sum` is the forward transform in terms of words and numbers. It asks
nothing of the modulus.
-/

namespace RnsEngine

/-! ### Sums over positions -/

namespace Tile

variable {side : ℕ}

/-- Positions in the square are flat indices. -/
def positions (side : ℕ) : Fin side × Fin side ≃ Fin (side * side) where
  toFun p := index p.1 p.2
  invFun k := (row k, column k)
  left_inv p := by simp
  right_inv k := index_row_column k

/-- A sum over flat indices is a sum over rows and columns. -/
theorem sum_index {M : Type} [AddCommMonoid M] (f : Fin (side * side) → M) :
    ∑ k, f k = ∑ i, ∑ j, f (index i j) := by
  rw [← Fintype.sum_prod_type', ← (positions side).sum_comp f]
  rfl

/-- A reduced tile has reduced entries. -/
theorem Reduced.get_lt {c : Channel} {t : Tile side} (h : t.Reduced c) (i j : Fin side) :
    t.get i j < c.modulus := h (index i j)

/-- The coefficient with the flat index of a position is the residue of the entry there. -/
theorem residues_index (c : Channel) (t : Tile side) (i j : Fin side) :
    t.residues c (index i j) = c.residue (t.get i j) := rfl

/-- The entry at the position of a flat index is the word with that index. -/
theorem get_row_column (t : Tile side) (k : Fin (side * side)) :
    t.get (row k) (column k) = t.words.get k :=
  congrArg t.words.get (index_row_column k)

/-- What holds of every entry holds of the tile. -/
theorem reduced_and_residues_of_get {c : Channel} {t : Tile side}
    {a : Fin (side * side) → ZMod c.modulus.toNat}
    (h : ∀ i j, t.get i j < c.modulus ∧ c.residue (t.get i j) = a (index i j)) :
    t.Reduced c ∧ t.residues c = a := by
  refine ⟨fun k => ?_, funext fun k => ?_⟩
  · have hk := (h (row k) (column k)).1
    rwa [get_row_column] at hk
  · have hk := (h (row k) (column k)).2
    rwa [get_row_column, index_row_column] at hk

end Tile

/-- The exponent of a root that belongs to two positions falls into four parts. -/
theorem pow_position {R : Type} [CommRing R] {psi : R} {side : ℕ}
    (hpsi : psi ^ (side * side) = -1) (n₁ n₂ i j : ℕ) :
    psi ^ ((n₁ * side + n₂) * (2 * (i * side + j) + 1)) =
      psi ^ (side * n₁) * psi ^ (2 * side * n₁ * j) * psi ^ (n₂ * (2 * j + 1)) *
        psi ^ (2 * side * n₂ * i) := by
  have hexp : (n₁ * side + n₂) * (2 * (i * side + j) + 1) =
      side * side * (2 * (n₁ * i)) +
        (side * n₁ + 2 * side * n₁ * j + n₂ * (2 * j + 1) + 2 * side * n₂ * i) := by ring
  have hone : psi ^ (side * side * (2 * (n₁ * i))) = 1 := by
    rw [pow_mul, hpsi, pow_mul (-1 : R), neg_one_sq, one_pow]
  rw [hexp, pow_add, hone, one_mul, pow_add, pow_add, pow_add]

namespace Datapath

open Lanes

variable {g : Geometry} {c : Channel} {t : Table} {h : t.Covers g}
  {psi scale : ZMod c.modulus.toNat}

/-- A lane of given words is transformed to the sums of their residues times powers. -/
theorem spectrum_ofFn (ht : t.Powers h c psi scale) (hpsi : psi ^ g.ringDim = -1)
    {f : Fin g.side → UInt64} (hf : ∀ n, f n < c.modulus) (k : Fin g.side) :
    (spectrum c t h (Vector.ofFn f)).get k < c.modulus ∧
      c.residue ((spectrum c t h (Vector.ofFn f)).get k) =
        ∑ n, c.residue (f n) * psi ^ (2 * g.side * n.val * k.val) := by
  have hget : ∀ n, (Vector.ofFn f).get n = f n := fun n => Vector.getElem_ofFn n.isLt
  have hspec := spectrum_spec ht hpsi (fun k hk => by rw [Vector.getElem_ofFn]; exact hf _) k
    (v := Vector.ofFn f)
  simpa only [hget] using hspec

/-- An entry of the forward transform, as a sum over the entries of the tile. -/
theorem get_evaluate_spec (ht : t.Powers h c psi scale) (hpsi : psi ^ g.ringDim = -1)
    {d : Datapath g} (hd : d.tile.Reduced c) (i j : Fin g.side) :
    (d.evaluate c t h).tile.get i j < c.modulus ∧
      c.residue ((d.evaluate c t h).tile.get i j) =
        scale * Negacyclic.values psi (d.tile.residues c) (Tile.index i j) := by
  have htwist : ∀ n₁ n₂, c.mul (d.tile.get n₁ n₂) (t.read h (.twist n₁)) < c.modulus :=
    fun n₁ n₂ => c.mul_lt (hd.get_lt n₁ n₂) (ht.read_lt _)
  -- the outer lane is a row of values, each of which is a sum over a column
  have hcolumn := fun n₂ => spectrum_ofFn ht hpsi (fun n₁ => htwist n₁ n₂) j
  obtain ⟨hlt, hres⟩ := spectrum_ofFn ht hpsi
    (fun n₂ => c.mul_lt (hcolumn n₂).1 (ht.read_lt (.pass j n₂))) i
  rw [get_evaluate]
  refine ⟨hlt, hres.trans ?_⟩
  rw [Negacyclic.values, Tile.sum_index, Finset.sum_comm, Finset.mul_sum]
  refine Finset.sum_congr rfl fun n₂ _ => ?_
  rw [c.residue_mul (hcolumn n₂).1 (ht.read_lt _), (hcolumn n₂).2, ht.pass, Finset.sum_mul,
    Finset.sum_mul, Finset.mul_sum]
  refine Finset.sum_congr rfl fun n₁ _ => ?_
  rw [c.residue_mul (hd.get_lt n₁ n₂) (ht.read_lt _), ht.twist, Tile.residues_index]
  simp only [Tile.index, pow_position hpsi, Table.exponent]
  ring

/-- An entry of the inverse transform, as a sum over the entries of the tile. -/
theorem get_interpolate_spec (ht : t.Powers h c psi scale) (hpsi : psi ^ g.ringDim = -1)
    {d : Datapath g} (hd : d.tile.Reduced c) (i j : Fin g.side) :
    (d.interpolate c t h).tile.get i j < c.modulus ∧
      c.residue ((d.interpolate c t h).tile.get i j) =
        scale * Negacyclic.coefficients psi (d.tile.residues c) (Tile.index i j) := by
  have hrow := fun k₁ => spectrum_ofFn ht hpsi (fun k₂ => hd.get_lt k₂ k₁) j
  have hpass := fun k₁ => c.mul_lt (hrow k₁).1 (ht.read_lt (.pass k₁ j))
  obtain ⟨hlt, hres⟩ := spectrum_ofFn ht hpsi hpass i
  rw [get_interpolate]
  refine ⟨c.mul_lt hlt (ht.read_lt _), ?_⟩
  rw [c.residue_mul hlt (ht.read_lt _), hres, ht.twist, Negacyclic.coefficients, Tile.sum_index,
    Finset.sum_comm, Finset.sum_mul, Finset.mul_sum]
  refine Finset.sum_congr rfl fun k₁ _ => ?_
  rw [c.residue_mul (hrow k₁).1 (ht.read_lt _), (hrow k₁).2, ht.pass, Finset.sum_mul,
    Finset.sum_mul, Finset.sum_mul, Finset.mul_sum]
  refine Finset.sum_congr rfl fun k₂ _ => ?_
  rw [Tile.residues_index]
  simp only [Tile.index, pow_position hpsi, Table.exponent]
  ring

/-- **The forward transform** of a reduced tile is reduced, and holds the scaled values of the
polynomial at the odd powers of the root. -/
theorem evaluate_spec (ht : t.Powers h c psi scale) (hpsi : psi ^ g.ringDim = -1)
    {d : Datapath g} (hd : d.tile.Reduced c) :
    (d.evaluate c t h).tile.Reduced c ∧ (d.evaluate c t h).tile.residues c =
      fun k => scale * Negacyclic.values psi (d.tile.residues c) k :=
  Tile.reduced_and_residues_of_get (get_evaluate_spec ht hpsi hd)

/-- **The inverse transform** of a reduced tile is reduced, and holds the scaled sums of values
that lead back to the coefficients. -/
theorem interpolate_spec (ht : t.Powers h c psi scale) (hpsi : psi ^ g.ringDim = -1)
    {d : Datapath g} (hd : d.tile.Reduced c) :
    (d.interpolate c t h).tile.Reduced c ∧ (d.interpolate c t h).tile.residues c =
      fun k => scale * Negacyclic.coefficients psi (d.tile.residues c) k :=
  Tile.reduced_and_residues_of_get (get_interpolate_spec ht hpsi hd)

/-- The transform with a table that is derived from a root takes reduced coefficients to their
values at the odd powers of the root. -/
theorem transform?_spec {root : UInt64} (ht : Table.ofRoot g c root .forward = .ok t)
    {d : Datapath g} (hd : d.tile.Reduced c) :
    ∃ e, d.transform? c t = some e ∧ e.tile.Reduced c ∧
      e.tile.residues c = Negacyclic.values (c.residue root) (d.tile.residues c) := by
  obtain ⟨hroot, hdirection, hpowers⟩ := Table.ofRoot_forward_eq_ok ht
  have hcovers : t.Covers g := (Table.fits_of_ofRoot ht).covers
  obtain ⟨hreduced, hresidues⟩ := evaluate_spec (hpowers hcovers) hroot hd
  refine ⟨d.evaluate c t hcovers, ?_, hreduced, ?_⟩
  · rw [transform?, dif_pos hcovers, transform, hdirection]
  · simpa only [one_mul] using hresidues

/-- **The forward transform in numbers.** With the table that is derived from a root, a tile of
reduced words is transformed to the residues of the sums of its words times powers of the root,
in natural order. Nothing is asked of the modulus. -/
theorem forward_transform_eq_sum (g : Geometry) (c : Channel) (psi : UInt64) {t : Table}
    (ht : Table.ofRoot g c psi .forward = .ok t) (d : Datapath g) (hd : d.tile.Reduced c) :
    ∃ e, d.transform? c t = some e ∧ ∀ k : Fin (g.side * g.side),
      (e.tile.words.get k).toNat =
        (∑ n : Fin (g.side * g.side), (d.tile.words.get n).toNat *
          psi.toNat ^ (n.val * (2 * k.val + 1))) % c.modulus.toNat := by
  obtain ⟨hpsi, hdirection, hpowers⟩ := Table.ofRoot_forward_eq_ok ht
  have hcovers : t.Covers g := (Table.fits_of_ofRoot ht).covers
  obtain ⟨hreduced, hresidues⟩ := evaluate_spec (hpowers hcovers) hpsi hd
  have htransform : d.transform c t hcovers = d.evaluate c t hcovers := by
    simp only [transform, hdirection]
  refine ⟨d.evaluate c t hcovers, ?_, fun k => ?_⟩
  · rw [transform?, dif_pos hcovers, htransform]
  · have hk : c.residue ((d.evaluate c t hcovers).tile.words.get k) =
        ((∑ n : Fin (g.side * g.side), (d.tile.words.get n).toNat *
          psi.toNat ^ (n.val * (2 * k.val + 1)) : ℕ) : ZMod c.modulus.toNat) := by
      rw [Nat.cast_sum]
      refine (congrFun hresidues k).trans ?_
      simp [Negacyclic.values, Tile.residues, Channel.residue]
    rw [← c.val_residue (hreduced k), hk, ZMod.val_natCast]

/-- A tile of sixteen words modulo the even number `3 ^ 16 + 1`, where `3` is a root: each word
is the greatest reduced one. -/
theorem forward_transform_composite :
    ∃ (g : Geometry) (c : Channel) (t : Table) (d : Datapath g),
      Table.ofRoot g c 3 .forward = .ok t ∧ d.tile.Reduced c ∧
        ∃ e, d.transform? c t = some e ∧
          ∃ k : Fin (g.side * g.side), k.val = 5 ∧ (e.tile.words.get k).toNat = 21699780 := by
  let g : Geometry := ⟨2, 1, by decide, by decide, by decide⟩
  let c : Channel := ⟨43046722, Barrett.ofModulus 43046722, by decide, by decide, rfl⟩
  let d : Datapath g := { Scratch.blank g with tile := ⟨Vector.replicate _ 43046721⟩ }
  have ht : Table.ofRoot g c 3 .forward = .ok (Table.ofFactors g c .forward (3 % c.modulus) 1) := by
    decide +kernel
  have hword : ∀ k, d.tile.words.get k = 43046721 := fun k => Vector.getElem_replicate k.isLt
  have hd : d.tile.Reduced c := fun k => by
    rw [hword k]
    decide
  obtain ⟨e, he, hwords⟩ := forward_transform_eq_sum g c 3 ht d hd
  refine ⟨g, c, _, d, ht, hd, e, he, ⟨5, by decide⟩, rfl, ?_⟩
  rw [hwords]
  simp only [hword]
  decide +kernel

end Datapath

end RnsEngine
