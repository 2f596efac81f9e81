import Mathlib.Data.UInt
import RnsEngine.Proofs.Ring.Modulus
import RnsEngine.Proofs.Transform.Inversion
import RnsEngine.Proofs.Transform.Operands

/-!
# Tables of either direction

Both tables of a root are derived from a single check, that the power of the root with the ring
dimension as exponent is `-1`. The inverses of the root and of the ring dimension in the backward
table are powers with exponent `q - 2`, which are inverses modulo a prime `q`. Modulo a number that
is not prime the tables may be derived all the same. Modulo every odd number the power still inverts
the root (`pow_sub_two_mul_self`), but it inverts the ring dimension only if the power with exponent
`q - 1` is one. This power, `Table.remnant`, decides whether the tables cancel and whether the
transforms undo each other (`Table.pair_inverse_iff`).
-/

namespace RnsEngine

namespace Geometry

/-- The ring dimension is even. -/
theorem two_dvd_ringDim (g : Geometry) : 2 ∣ g.ringDim :=
  Dvd.dvd.mul_left (Dvd.intro _ g.two_mul_half) _

/-- The ring dimension is a unit modulo odd numbers only. -/
theorem odd_of_isUnit_ringDim {g : Geometry} {q : ℕ} (h : IsUnit (g.ringDim : ZMod q)) :
    Odd q :=
  Nat.coprime_two_left.1 (Nat.Coprime.coprime_dvd_left g.two_dvd_ringDim
    ((ZMod.isUnit_iff_coprime _ _).1 h))

end Geometry

namespace Table

variable {g : Geometry} {c : Channel} {psi : UInt64} {t t' : Table}

/-! ### Pairs -/

/-- Both tables of a root. -/
def pair (g : Geometry) (c : Channel) (psi : UInt64) : Except Fault (Table × Table) := do
  let forward ← ofRoot g c psi .forward
  let inverse ← ofRoot g c psi .inverse
  return (forward, inverse)

/-- The factors of two tables cancel at every place of a stage and between the passes. In the twist
their product with the ring dimension is the same in every row, and one if the tables are inverse to
each other. -/
structure Cancels (t : Table) (c : Channel) (t' : Table) (h : t.Covers g) (h' : t'.Covers g)
    (rest : ZMod c.modulus.toNat) : Prop where
  stage : ∀ s b, c.residue (t.read h (.stage s b)) * c.residue (t'.read h' (.stage s b)) = 1
  pass : ∀ row column,
    c.residue (t.read h (.pass row column)) * c.residue (t'.read h' (.pass row column)) = 1
  twist : ∀ row, c.residue (t.read h (.twist row)) * c.residue (t'.read h' (.twist row)) *
    (g.ringDim : ZMod c.modulus.toNat) = rest

/-- A pair is two tables of one root, each of its direction. -/
theorem pair_eq_ok (h : pair g c psi = .ok (t, t')) :
    c.residue psi ^ g.ringDim = -1 ∧ (g.ringDim : ZMod c.modulus.toNat) ≠ 0 ∧
      t.Fits g .forward ∧ t'.Fits g .inverse ∧
      (∀ ht : t.Covers g, t.Powers ht c (c.residue psi) 1) ∧
      ∀ ht : t'.Covers g, t'.Powers ht c (c.residue psi ^ (c.modulus.toNat - 2))
        ((g.ringDim : ZMod c.modulus.toNat) ^ (c.modulus.toNat - 2)) := by
  obtain ⟨forward, hforward, h⟩ := bind_eq_ok_iff.1 h
  obtain ⟨inverse, hinverse, h⟩ := bind_eq_ok_iff.1 h
  obtain ⟨rfl, rfl⟩ := Prod.mk.inj (Except.ok.inj h)
  obtain ⟨hpsi, -, hpowers⟩ := ofRoot_forward_eq_ok hforward
  obtain ⟨hdim, hfits, hpowers'⟩ := ofRoot_inverse_eq_ok hinverse
  exact ⟨hpsi, hdim, fits_of_ofRoot hforward, hfits, hpowers, hpowers'⟩

/-! ### Cancelling factors -/

/-- The powers of a root and of its inverse cancel, and what is left in the twist is the product of
the scale and the ring dimension. -/
theorem Powers.cancels {root root' scale : ZMod c.modulus.toNat} {h : t.Covers g}
    {h' : t'.Covers g} (ht : t.Powers h c root 1) (ht' : t'.Powers h' c root' scale)
    (hroot : root' * root = 1) :
    t.Cancels c t' h h' (scale * (g.ringDim : ZMod c.modulus.toNat)) := by
  have hpow : ∀ e : ℕ, root ^ e * root' ^ e = 1 := fun e => by
    rw [← mul_pow, mul_comm root, hroot, one_pow]
  refine ⟨fun s b => ?_, fun row column => ?_, fun row => ?_⟩
  · rw [ht.stage, ht'.stage, hpow]
  · rw [ht.pass, ht'.pass, hpow]
  · rw [ht.twist, ht'.twist, mul_one, ← mul_assoc, hpow, one_mul]

/-- What is left in the twist can be read off the first row, whose powers are one. -/
theorem Powers.rest_eq {root root' scale rest : ZMod c.modulus.toNat} {h : t.Covers g}
    {h' : t'.Covers g} (ht : t.Powers h c root 1) (ht' : t'.Powers h' c root' scale)
    (hcancels : t.Cancels c t' h h' rest) :
    scale * (g.ringDim : ZMod c.modulus.toNat) = rest := by
  have hrow := hcancels.twist ⟨0, g.side_pos⟩
  rw [ht.twist, ht'.twist] at hrow
  simpa [exponent] using hrow

/-! ### There and back -/

/-- A table of the forward direction leads through the forward transform. -/
theorem Fits.transform_forward (ht : t.Fits g .forward) (h : t.Covers g) (d : Datapath g) :
    d.transform c t h = d.evaluate c t h := by
  simp only [Datapath.transform, ht.1]

/-- A table of the inverse direction leads through the inverse transform. -/
theorem Fits.transform_inverse (ht : t.Fits g .inverse) (h : t.Covers g) (d : Datapath g) :
    d.transform c t h = d.interpolate c t h := by
  simp only [Datapath.transform, ht.1]

/-- The inverse transform with the one table takes what the forward transform with the other makes
of a reduced tile to a multiple of the tile, whatever the buffers hold. -/
def Returns (t : Table) (c : Channel) (t' : Table) (h : t.Covers g) (h' : t'.Covers g)
    (factor : ZMod c.modulus.toNat) : Prop :=
  ∀ ⦃d d' : Datapath g⦄, d.tile.Reduced c → d'.tile = (d.transform c t h).tile →
    (d'.transform c t' h').tile.Reduced c ∧
      (d'.transform c t' h').tile.residues c = fun k => factor * d.tile.residues c k

/-- The inverse transform with the one table undoes the forward transform with the other. -/
def Undoes (t' : Table) (c : Channel) (t : Table) (h' : t'.Covers g) (h : t.Covers g) : Prop :=
  ∀ ⦃d d' : Datapath g⦄, d.tile.Reduced c → d'.tile = (d.transform c t h).tile →
    (d'.transform c t' h').tile = d.tile

/-- What returns as its own multiple with one is undone. -/
theorem Returns.undoes {h : t.Covers g} {h' : t'.Covers g} (hreturns : t.Returns c t' h h' 1) :
    t'.Undoes c t h' h := by
  intro d d' hd hd'
  obtain ⟨hreduced, hresidues⟩ := hreturns hd hd'
  exact Tile.eq_of_residues hreduced hd (by simpa only [one_mul] using hresidues)

section Transforms

variable {root root' scale : ZMod c.modulus.toNat} {h : t.Covers g} {h' : t'.Covers g}

/-- With the powers of a root and of its inverse a tile returns as a multiple. -/
theorem Powers.returns (ht : t.Powers h c root 1) (ht' : t'.Powers h' c root' scale)
    (hforward : t.Fits g .forward) (hinverse : t'.Fits g .inverse)
    (hpow : root ^ g.ringDim = -1) (hroot : root' * root = 1) :
    t.Returns c t' h h' (scale * (g.ringDim : ZMod c.modulus.toNat)) := by
  intro d d' hd hd'
  obtain ⟨hreduced, hvalues⟩ := Datapath.evaluate_spec ht hpow hd
  rw [← hforward.transform_forward, ← hd'] at hreduced hvalues
  obtain ⟨hback, hcoefficients⟩ :=
    Datapath.interpolate_spec ht' (Negacyclic.inverse_pow hpow hroot) hreduced
  rw [hinverse.transform_inverse]
  refine ⟨hback, funext fun k => ?_⟩
  rw [hcoefficients, hvalues]
  simp only [one_mul]
  rw [Negacyclic.coefficients_values (Roots.sq_side_eq g) hpow hroot, mul_assoc]
  rfl

/-- A tile that is transformed back is scaled, and no word of it stands for one unless the scale
is a unit. This asks nothing of the roots. -/
theorem Powers.isUnit_scale (ht' : t'.Powers h' c root' scale) (hinverse : t'.Fits g .inverse)
    {d : Datapath g} (hd : d.tile.Reduced c) {i j : Fin g.side}
    (hone : c.residue ((d.transform c t' h').tile.get i j) = 1) : IsUnit scale := by
  have hlt := Lanes.spectrum_lt ht'.read_lt fun k₁ => c.mul_lt
    (Lanes.spectrum_lt ht'.read_lt (fun k₂ => hd.get_lt k₂ k₁) j) (ht'.read_lt (.pass k₁ j))
  rw [hinverse.transform_inverse, Datapath.get_interpolate,
    c.residue_mul (hlt i) (ht'.read_lt _), ht'.twist, ← mul_assoc] at hone
  exact .of_mul_eq_one_right _ hone

end Transforms

/-- Where every tile is undone, the tile of ones is, and its words stand for one. -/
theorem Undoes.exists_ones {h : t.Covers g} {h' : t'.Covers g} (hundoes : t'.Undoes c t h' h) :
    ∃ d d' : Datapath g, d.tile.Reduced c ∧ d'.tile = (d.transform c t h).tile ∧
      d.tile.residues c = 1 ∧ (d'.transform c t' h').tile.residues c = 1 := by
  let d : Datapath g := { Scratch.blank g with tile := ⟨.replicate _ 1⟩ }
  have hword : ∀ k, d.tile.words.get k = 1 := fun k => Vector.getElem_replicate k.isLt
  have hd : d.tile.Reduced c := fun k => hword k ▸ c.one_lt_modulus
  have hone : d.tile.residues c = 1 := funext fun k => by
    simp [Tile.residues, hword, Channel.residue]
  let d' : Datapath g := { Scratch.blank g with tile := (d.transform c t h).tile }
  exact ⟨d, d', hd, rfl, hone, hundoes hd (rfl : d'.tile = _) ▸ hone⟩

/-- Where every tile is undone, the factor with which every tile returns is one. -/
theorem Undoes.factor_eq_one {h : t.Covers g} {h' : t'.Covers g} (hundoes : t'.Undoes c t h' h)
    {factor : ZMod c.modulus.toNat} (hreturns : t.Returns c t' h h' factor) : factor = 1 := by
  obtain ⟨d, d', hd, hd', hone, hback⟩ := hundoes.exists_ones
  have hresidues := (hreturns hd hd').2
  rw [hback, hone] at hresidues
  simpa using (congrFun hresidues ⟨0, g.ringDim_pos⟩).symm

/-! ### The power that decides -/

/-- The power of the ring dimension that the scale leaves over: the power that would be one modulo a
prime. -/
def remnant (g : Geometry) (c : Channel) : ZMod c.modulus.toNat :=
  (g.ringDim : ZMod c.modulus.toNat) ^ (c.modulus.toNat - 1)

/-- Whether the power is one is a computation with numbers. -/
theorem remnant_eq_one_iff : remnant g c = 1 ↔
    g.ringDim ^ (c.modulus.toNat - 1) % c.modulus.toNat = 1 % c.modulus.toNat := by
  rw [← ZMod.natCast_eq_natCast_iff', Nat.cast_pow, Nat.cast_one, remnant]

/-- The modulus of a pair is greater than two, as the ring dimension does not vanish. -/
theorem two_lt_of_pair (h : pair g c psi = .ok (t, t')) : 2 < c.modulus.toNat := by
  obtain ⟨-, hdim, -⟩ := pair_eq_ok h
  refine lt_of_le_of_ne c.two_le_toNat fun htwo => hdim ?_
  rw [ZMod.natCast_eq_zero_iff, ← htwo]
  exact g.two_dvd_ringDim

/-- The scale times the ring dimension. -/
theorem scale_mul_ringDim (g : Geometry) (c : Channel) :
    (g.ringDim : ZMod c.modulus.toNat) ^ (c.modulus.toNat - 2) *
      (g.ringDim : ZMod c.modulus.toNat) = remnant g c := by
  have htwo := c.two_le_toNat
  have hexp : c.modulus.toNat - 2 + 1 = c.modulus.toNat - 1 := by omega
  rw [← pow_succ, hexp, remnant]

/-- Modulo an odd number the tables of a pair cancel up to the power, and so a tile returns. -/
theorem cancels_and_returns_of_odd (h : pair g c psi = .ok (t, t')) (hodd : Odd c.modulus.toNat)
    (ht : t.Covers g) (ht' : t'.Covers g) :
    t.Cancels c t' ht ht' (remnant g c) ∧ t.Returns c t' ht ht' (remnant g c) := by
  obtain ⟨hpsi, -, hforward, hinverse, hpowers, hpowers'⟩ := pair_eq_ok h
  have hroot : c.residue psi ^ (c.modulus.toNat - 2) * c.residue psi = 1 :=
    pow_sub_two_mul_self hodd (two_lt_of_pair h).le (g.ringDim_eq ▸ hpsi)
  rw [← scale_mul_ringDim]
  exact ⟨(hpowers ht).cancels (hpowers' ht') hroot,
    (hpowers ht).returns (hpowers' ht') hforward hinverse hpsi hroot⟩

/-- The tables of a pair cancel only if the power is one. -/
theorem remnant_eq_one_of_cancels (h : pair g c psi = .ok (t, t')) {ht : t.Covers g}
    {ht' : t'.Covers g} (hcancels : t.Cancels c t' ht ht' 1) : remnant g c = 1 := by
  obtain ⟨-, -, -, -, hpowers, hpowers'⟩ := pair_eq_ok h
  rw [← scale_mul_ringDim]
  exact (hpowers ht).rest_eq (hpowers' ht') hcancels

/-- The transforms with the tables of a pair undo each other only if the power is one. -/
theorem remnant_eq_one_of_undoes (h : pair g c psi = .ok (t, t')) {ht : t.Covers g}
    {ht' : t'.Covers g} (hundoes : t'.Undoes c t ht' ht) : remnant g c = 1 := by
  obtain ⟨hpsi, -, hforward, hinverse, hpowers, hpowers'⟩ := pair_eq_ok h
  obtain ⟨d, d', hd, hd', -, hback⟩ := hundoes.exists_ones
  have hreduced : d'.tile.Reduced c := by
    rw [hd', hforward.transform_forward]
    exact (Datapath.evaluate_spec (hpowers ht) hpsi hd).1
  -- one is a multiple of the scale, so the ring dimension is a unit and the modulus odd
  have hunit : IsUnit ((g.ringDim : ZMod c.modulus.toNat) ^ (c.modulus.toNat - 2)) :=
    (hpowers' ht').isUnit_scale hinverse hreduced (congrFun hback (Tile.index 0 0))
  rw [isUnit_pow_iff (Nat.sub_ne_zero_of_lt (two_lt_of_pair h))] at hunit
  have hodd := Geometry.odd_of_isUnit_ringDim hunit
  exact hundoes.factor_eq_one (cancels_and_returns_of_odd h hodd ht ht').2

/-- The power is one modulo odd numbers only. -/
theorem odd_of_remnant_eq_one (h : remnant g c = 1) : Odd c.modulus.toNat := by
  have hexp : c.modulus.toNat - 1 ≠ 0 :=
    Nat.sub_ne_zero_of_lt c.two_le_toNat
  exact Geometry.odd_of_isUnit_ringDim (IsUnit.of_pow_eq_one h hexp)

/-- **Tables that are inverse to each other.** The two tables of a root cancel, with the ring
dimension in the twist, exactly if the power of the ring dimension with exponent `q - 1` is one, and
exactly then the transforms undo each other. Modulo a prime this is so. Modulo every odd number that
power is what is left in the twist and what a tile is multiplied by. -/
theorem pair_inverse_iff (h : pair g c psi = .ok (t, t')) :
    ∃ (hforward : t.Fits g .forward) (hinverse : t'.Fits g .inverse),
      (t.Cancels c t' hforward.covers hinverse.covers 1 ↔ remnant g c = 1) ∧
      (t'.Undoes c t hinverse.covers hforward.covers ↔ remnant g c = 1) ∧
      (c.modulus.toNat.Prime → remnant g c = 1) ∧
      (Odd c.modulus.toNat →
        t.Cancels c t' hforward.covers hinverse.covers (remnant g c) ∧
        t.Returns c t' hforward.covers hinverse.covers (remnant g c)) := by
  obtain ⟨-, hdim, hforward, hinverse, -⟩ := pair_eq_ok h
  have hodd := fun hodd => cancels_and_returns_of_odd h hodd hforward.covers hinverse.covers
  refine ⟨hforward, hinverse, ⟨remnant_eq_one_of_cancels h, fun hone => ?_⟩,
    ⟨remnant_eq_one_of_undoes h, fun hone => ?_⟩, fun hprime => ?_, hodd⟩
  · exact hone ▸ (hodd (odd_of_remnant_eq_one hone)).1
  · exact Returns.undoes (hone ▸ (hodd (odd_of_remnant_eq_one hone)).2)
  · have := Fact.mk hprime
    exact ZMod.pow_card_sub_one_eq_one hdim

/-- The tables of the root `42` are inverse to each other modulo `97 * 193`, which is not prime. -/
theorem pair_inverse_iff_composite :
    ∃ (g : Geometry) (c : Channel) (t t' : Table) (h : t.Covers g) (h' : t'.Covers g),
      c.modulus = 97 * 193 ∧ pair g c 42 = .ok (t, t') ∧ t.Cancels c t' h h' 1 ∧
        t'.Undoes c t h' h := by
  let g : Geometry := ⟨2, 1, by decide, by decide, by decide⟩
  let c : Channel := ⟨18721, Barrett.ofModulus 18721, by decide, by decide, rfl⟩
  have hpair : pair g c 42 = .ok
      (ofFactors g c .forward 42 1, ofFactors g c .inverse (c.pow 42 18719) (c.pow 16 18719)) := by
    decide +kernel
  have hone : remnant g c = 1 := remnant_eq_one_iff.2 (by decide +kernel)
  obtain ⟨hforward, hinverse, hcancels, hundoes, -⟩ := pair_inverse_iff hpair
  exact ⟨g, c, _, _, hforward.covers, hinverse.covers, rfl, hpair, hcancels.2 hone,
    hundoes.2 hone⟩

/-- Modulo `194` nothing cancels in the tables of the root `19`, and a tile does not return. Modulo
the square of `97` it is the twist that does not cancel. -/
theorem exists_pair_not_inverse :
    (∃ (g : Geometry) (c : Channel) (t t' : Table) (h : t.Covers g) (h' : t'.Covers g),
      c.modulus = 194 ∧ pair g c 19 = .ok (t, t') ∧
        (∃ s b, c.residue (t.read h (.stage s b)) * c.residue (t'.read h' (.stage s b)) ≠ 1) ∧
        (∃ row column, c.residue (t.read h (.pass row column)) *
          c.residue (t'.read h' (.pass row column)) ≠ 1) ∧
        (∃ row, c.residue (t.read h (.twist row)) * c.residue (t'.read h' (.twist row)) *
          (g.ringDim : ZMod c.modulus.toNat) ≠ 1) ∧ ¬ t'.Undoes c t h' h) ∧
    ∃ (g : Geometry) (c : Channel) (t t' : Table) (h : t.Covers g) (h' : t'.Covers g),
      c.modulus = 97 ^ 2 ∧ pair g c 1497 = .ok (t, t') ∧
        (∃ row, c.residue (t.read h (.twist row)) * c.residue (t'.read h' (.twist row)) *
          (g.ringDim : ZMod c.modulus.toNat) ≠ 1) ∧ ¬ t'.Undoes c t h' h := by
  let g : Geometry := ⟨2, 1, by decide, by decide, by decide⟩
  constructor
  · let c : Channel := ⟨194, Barrett.ofModulus 194, by decide, by decide, rfl⟩
    have hpair : pair g c 19 = .ok
        (ofFactors g c .forward 19 1, ofFactors g c .inverse (c.pow 19 192) (c.pow 16 192)) := by
      decide +kernel
    have hne : remnant g c ≠ 1 := fun hone => absurd (remnant_eq_one_iff.1 hone) (by decide +kernel)
    obtain ⟨-, -, hforward, hinverse, -⟩ := pair_eq_ok hpair
    refine ⟨g, c, _, _, hforward.covers, hinverse.covers, rfl, hpair,
      ⟨⟨1, by decide⟩, ⟨1, by decide⟩, ?_⟩, ⟨0, 1, ?_⟩, ⟨0, ?_⟩,
      fun hundoes => hne (remnant_eq_one_of_undoes hpair hundoes)⟩ <;>
        simp only [read_ofFactors] <;> decide +kernel
  · let c : Channel := ⟨9409, Barrett.ofModulus 9409, by decide, by decide, rfl⟩
    have hpair : pair g c 1497 = .ok (ofFactors g c .forward 1497 1,
        ofFactors g c .inverse (c.pow 1497 9407) (c.pow 16 9407)) := by
      decide +kernel
    have hne : remnant g c ≠ 1 := fun hone => absurd (remnant_eq_one_iff.1 hone) (by decide +kernel)
    obtain ⟨-, -, hforward, hinverse, -⟩ := pair_eq_ok hpair
    refine ⟨g, c, _, _, hforward.covers, hinverse.covers, rfl, hpair, ⟨0, ?_⟩,
      fun hundoes => hne (remnant_eq_one_of_undoes hpair hundoes)⟩
    simp only [read_ofFactors]
    decide +kernel

end Table

end RnsEngine
