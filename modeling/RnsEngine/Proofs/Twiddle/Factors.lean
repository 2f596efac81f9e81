import RnsEngine.Proofs.Channel.Power
import RnsEngine.Proofs.Refusal
import RnsEngine.Twiddle.Table

/-!
# What a derived table holds

A derived table is filled by one write for each factor. No two factors share a place, so every
factor is read back as it was written (`Table.read_ofFactors`). As residues the factors are the
powers of a root, those of the twist scaled: `Table.Powers` says so of a table, and it is all
that the transform relies on.

`Table.exists_ofRoot_forward` and `Table.exists_ofRoot_inverse` say when a table is derived, and
of which root its factors are the powers. Forwards nothing is asked of the modulus; backwards the
root and the ring dimension need their inverses, which they have modulo a prime. Whatever the
modulus is, `Table.ofRoot_inverse_eq_ok` says what a backward table holds.
-/

namespace RnsEngine

namespace Table

variable {g : Geometry} {c : Channel}

/-! ### Reading back what was written -/

/-- Writing the factors of a list leaves each of them at its place, and all other places alone. -/
theorem getElem_foldl_set (value : Slot g → UInt64) (slot : Slot g) (slots : List (Slot g))
    (words : Vector UInt64 g.tableSize) :
    getElem (slots.foldl (fun words s => words.set s.index (value s) s.index_lt) words)
      slot.index slot.index_lt =
        if slot ∈ slots then value slot else getElem words slot.index slot.index_lt := by
  -- the later writes of the list are the outer ones, so the words must be free in the induction
  induction slots generalizing words with
  | nil => simp
  | cons s slots ih =>
    rw [List.foldl_cons, ih]
    by_cases hs : slot = s
    · subst hs
      simp
    · have hne : s.index ≠ slot.index := fun h => hs (Slot.index_injective h).symm
      simp [hs, Vector.getElem_set_ne _ _ hne]

/-- Every factor of a derived table has the value that it was derived with. -/
@[simp] theorem read_ofFactors (direction : Direction) (root scale : UInt64)
    (h : (ofFactors g c direction root scale).Covers g) (slot : Slot g) :
    (ofFactors g c direction root scale).read h slot = factor c root scale slot := by
  have hfill := getElem_foldl_set (factor c root scale) slot (Slot.all g)
    (Vector.replicate g.tableSize 0)
  rw [if_pos slot.mem_all] at hfill
  exact hfill

/-- The factors of the layout are found in a table that reaches over it. -/
theorem get?_index (t : Table) (h : t.Covers g) (slot : Slot g) :
    t.get? slot.index = some (t.read h slot) :=
  Array.getElem?_eq_getElem (Nat.lt_of_lt_of_le slot.index_lt_extent h)

/-! ### Factors as residues -/

/-- The factors of a table are reduced, and stand for powers of a root, in the twist for scaled
ones. -/
structure Powers (t : Table) (h : t.Covers g) (c : Channel) (root scale : ZMod c.modulus.toNat) :
    Prop where
  read_lt : ∀ slot : Slot g, t.read h slot < c.modulus
  stage : ∀ (s : Fin g.logSide) (b : Fin g.half),
    c.residue (t.read h (.stage s b)) = root ^ exponent (.stage s b)
  twist : ∀ row : Fin g.side,
    c.residue (t.read h (.twist row)) = root ^ exponent (.twist row) * scale
  pass : ∀ row column : Fin g.side,
    c.residue (t.read h (.pass row column)) = root ^ exponent (.pass row column)

/-- The factors of a derived table are powers of the root that it was derived from. -/
theorem ofFactors_powers (direction : Direction) (root : UInt64) {scale : UInt64}
    (hscale : scale < c.modulus) (h : (ofFactors g c direction root scale).Covers g) :
    (ofFactors g c direction root scale).Powers h c (c.residue root) (c.residue scale) where
  read_lt slot := by
    rw [read_ofFactors]
    cases slot with
    | stage s b => exact c.pow_lt _ _
    | twist row => exact c.mul_lt (c.pow_lt _ _) hscale
    | pass row column => exact c.pow_lt _ _
  stage s b := by simp only [read_ofFactors, factor, c.residue_pow]
  twist row := by rw [read_ofFactors, factor, c.residue_mul (c.pow_lt _ _) hscale, c.residue_pow]
  pass row column := by simp only [read_ofFactors, factor, c.residue_pow]

/-! ### Tables of roots -/

/-- The word of the ring dimension stands for it. -/
theorem residue_ringDim (g : Geometry) (c : Channel) :
    c.residue (UInt64.ofNat g.ringDim) = g.ringDim := by
  rw [Channel.residue, g.toNat_ringDim]

/-- A word is a root when the power of its residue is minus one. -/
theorem isRoot_iff (g : Geometry) (c : Channel) (psi : UInt64) :
    IsRoot g c psi ↔ c.residue psi ^ g.ringDim = -1 :=
  c.pow_eq_modulus_sub_one_iff psi g.ringDim

/-- A derived table holds the factors of a root. -/
theorem exists_ofFactors_of_ofRoot {psi : UInt64} {direction : Direction} {t : Table}
    (h : ofRoot g c psi direction = .ok t) :
    ∃ root scale, scale < c.modulus ∧ t = ofFactors g c direction root scale := by
  simp only [ofRoot] at h
  split at h
  · cases direction with
    | forward => exact ⟨_, 1, c.one_lt_modulus, (Except.ok.inj h).symm⟩
    | inverse =>
      obtain ⟨root, -, h⟩ := bind_eq_ok_iff.1 h
      obtain ⟨scale, hscale, h⟩ := bind_eq_ok_iff.1 h
      obtain ⟨-, hlt, -⟩ := c.inv_eq_ok hscale
      exact ⟨root, scale, hlt, (Except.ok.inj h).symm⟩
  · cases h

/-- A forward table is derived from nothing but a root, and holds the powers of it. -/
theorem ofRoot_forward_eq_ok {psi : UInt64} {t : Table}
    (h : ofRoot g c psi .forward = .ok t) :
    c.residue psi ^ g.ringDim = -1 ∧ t.direction = .forward ∧
      ∀ ht : t.Covers g, t.Powers ht c (c.residue psi) 1 := by
  simp only [ofRoot] at h
  split at h
  · next hroot =>
    rw [isRoot_iff, c.residue_mod] at hroot
    obtain rfl := Except.ok.inj h
    refine ⟨hroot, rfl, fun ht => ?_⟩
    simpa using ofFactors_powers .forward (psi % c.modulus) c.one_lt_modulus ht
  · cases h

/-- An inverse table is derived from a root and a ring dimension that does not vanish, and holds the
powers that would be their inverses modulo a prime. -/
theorem ofRoot_inverse_eq_ok {psi : UInt64} {t : Table}
    (h : ofRoot g c psi .inverse = .ok t) :
    (g.ringDim : ZMod c.modulus.toNat) ≠ 0 ∧ t.Fits g .inverse ∧ ∀ ht : t.Covers g,
      t.Powers ht c (c.residue psi ^ (c.modulus.toNat - 2))
        ((g.ringDim : ZMod c.modulus.toNat) ^ (c.modulus.toNat - 2)) := by
  have hfits := fits_of_ofRoot h
  simp only [ofRoot] at h
  split at h
  · obtain ⟨root, hroot, h⟩ := bind_eq_ok_iff.1 h
    obtain ⟨scale, hscale, h⟩ := bind_eq_ok_iff.1 h
    obtain rfl := Except.ok.inj h
    obtain ⟨-, -, hpsi⟩ := c.inv_eq_ok hroot
    obtain ⟨hdim, hlt, hN⟩ := c.inv_eq_ok hscale
    rw [residue_ringDim] at hdim hN
    refine ⟨hdim, hfits, fun ht => ?_⟩
    rw [← c.residue_mod, ← hpsi, ← hN]
    exact ofFactors_powers .inverse root hlt ht
  · cases h

/-- Every root has its forward table. -/
theorem exists_ofRoot_forward {psi : UInt64} (h : c.residue psi ^ g.ringDim = -1) :
    ∃ t, ofRoot g c psi .forward = .ok t := by
  rw [← c.residue_mod, ← isRoot_iff] at h
  exact ⟨_, by simp only [ofRoot]; rw [if_pos h]⟩

/-- Modulo a prime a root does not vanish. -/
theorem residue_ne_zero [Fact c.modulus.toNat.Prime] {psi : UInt64}
    (hpsi : c.residue psi ^ g.ringDim = -1) : c.residue (psi % c.modulus) ≠ 0 := by
  refine ne_zero_pow g.ringDim_pos.ne' ?_
  rw [c.residue_mod, hpsi]
  exact neg_ne_zero.2 one_ne_zero

/-- Modulo a prime that does not divide the ring dimension, every root has its inverse table. It
holds the powers of the inverse root, and its twist is scaled by the inverse of the ring
dimension. -/
theorem exists_ofRoot_inverse (hq : c.modulus.toNat.Prime) {psi : UInt64}
    (hpsi : c.residue psi ^ g.ringDim = -1) (hdim : (g.ringDim : ZMod c.modulus.toNat) ≠ 0) :
    ∃ t root scale, ofRoot g c psi .inverse = .ok t ∧ root * c.residue psi = 1 ∧
      scale * (g.ringDim : ZMod c.modulus.toNat) = 1 ∧ t.direction = .inverse ∧
      ∀ ht : t.Covers g, t.Powers ht c root scale := by
  have := Fact.mk hq
  obtain ⟨root, hroot, -, hmul⟩ := c.exists_inv hq (residue_ne_zero hpsi)
  obtain ⟨scale, hscale, hlt, hone⟩ := c.exists_inv hq (residue_ringDim g c ▸ hdim)
  have hisRoot : IsRoot g c (psi % c.modulus) := by rwa [isRoot_iff, c.residue_mod]
  -- the engine computes both inverses as powers, which are inverses modulo a prime only
  refine ⟨ofFactors g c .inverse root scale, c.residue root, c.residue scale, ?_, ?_, ?_, rfl,
    ofFactors_powers .inverse root hlt⟩
  · simp only [ofRoot, if_pos hisRoot, hroot, hscale]
    rfl
  · rwa [c.residue_mod] at hmul
  · rwa [residue_ringDim] at hone

end Table

end RnsEngine
