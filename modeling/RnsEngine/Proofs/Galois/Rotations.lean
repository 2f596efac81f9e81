import Mathlib.RingTheory.ZMod.UnitsCyclic
import RnsEngine.Proofs.Galois.Steps

/-!
# The rotations

The rotations are the powers of five modulo the order, as many as half the ring dimension. This is
just the order of five in the group of units (`GaloisSteps.orderOf_unitFive`), so that the exponents of
steps count modulo the number of steps, no power is listed twice, and the list is the subgroup that
five generates. As many residues are congruent to one modulo four, and all powers are, so the list
holds these as well (`GaloisSteps.mem_rotations_iff`).

`GaloisSteps.rotations_subgroup` puts this together, with what it means for products and inverses of
steps.
-/

namespace RnsEngine

namespace GaloisSteps

variable {g : Geometry}

/-! ### Powers -/

/-- Multiplying by the generator again and again lists its powers. -/
theorem powersFrom_eq {order : ℕ} (count : ℕ) :
    ∀ {k : ℕ}, k < order →
      powersFrom order count k = (List.range count).map fun r => k * generator ^ r % order := by
  induction count with
  | zero => exact fun _ => rfl
  | succ count ih =>
    intro k hk
    have hnext : k * generator % order < order := Nat.mod_lt _ (Nat.zero_lt_of_lt hk)
    have hpower : ∀ r, k * generator % order * generator ^ r % order =
        k * generator ^ (r + 1) % order := by
      intro r
      rw [Nat.mod_mul_mod, Nat.mul_assoc, ← Nat.pow_succ']
    rw [powersFrom, ih hnext, List.range_succ_eq_map, List.map_cons, List.map_map, Nat.pow_zero,
      Nat.mul_one, Nat.mod_eq_of_lt hk]
    exact congrArg (k :: ·) (List.map_congr_left fun r _ => hpower r)

/-- The rotations are the first powers of five. -/
theorem toList_rotations (g : Geometry) :
    (rotations g).elements.toList =
      (List.range (g.ringDim / 2)).map fun r => generator ^ r % g.order := by
  rw [rotations, powersFrom_eq _ g.one_lt_order]
  simp only [Nat.one_mul]

/-- There are half as many rotations as coefficients. -/
theorem size_rotations (g : Geometry) : (rotations g).size = g.ringDim / 2 := by
  rw [size, ← Array.length_toList, toList_rotations, List.length_map, List.length_range]

/-- The place of a step has the power of five that its number says. -/
theorem getElem?_rotations {r : ℕ} (hr : r < (rotations g).size) :
    (rotations g).elements[r]? = some (generator ^ r % g.order) := by
  rw [size_rotations] at hr
  rw [← Array.getElem?_toList, toList_rotations, List.getElem?_map, List.getElem?_range hr,
    Option.map_some]

/-- A step has the power of five that its number says. -/
theorem element_rotations {r : ℕ} (hr : r < (rotations g).size) :
    (rotations g).element r = .ok (generator ^ r % g.order) := by
  rw [element, getElem?_rotations hr]

/-! ### The order of five -/

/-- The generator as a unit modulo the order. -/
def unitFive (g : Geometry) : (ZMod g.order)ˣ :=
  ZMod.unitOfCoprime generator (by
    rw [g.order_eq]
    exact Nat.Coprime.pow_right _ (by decide))

/-- The order is four times the number of rotations, which is a power of two. -/
theorem exists_order_eq (g : Geometry) : ∃ n, g.order = 2 ^ (n + 2) ∧ g.ringDim / 2 = 2 ^ n := by
  have hlog := g.two_le_logSide
  obtain ⟨n, hn⟩ : ∃ n, g.logRingDim = n + 1 := by
    refine Nat.exists_eq_add_one.2 ?_
    rw [Geometry.logRingDim]
    omega
  refine ⟨n, by rw [g.order_eq, hn], ?_⟩
  rw [g.ringDim_eq, hn, Nat.pow_succ, Nat.mul_div_cancel _ Nat.two_pos]

/-- Five has as many powers as there are rotations. -/
theorem orderOf_unitFive (g : Geometry) : orderOf (unitFive g) = g.ringDim / 2 := by
  obtain ⟨n, horder, hcount⟩ := exists_order_eq g
  have hfive : orderOf (5 : ZMod g.order) = 2 ^ n := by
    rw [horder]
    exact ZMod.orderOf_five n
  rw [← orderOf_units, hcount, ← hfive]
  rfl

/-- A power of the unit is the residue of the power. -/
theorem val_unitFive_pow (g : Geometry) (r : ℕ) :
    ((unitFive g ^ r : (ZMod g.order)ˣ) : ZMod g.order).val = generator ^ r % g.order := by
  rw [Units.val_pow_eq_pow_val, unitFive, ZMod.coe_unitOfCoprime, ← Nat.cast_pow, ZMod.val_natCast]

/-- Two powers of five are the same modulo the order exactly when their exponents are the same
modulo the number of rotations. -/
theorem generator_pow_mod_eq_iff (g : Geometry) {r s : ℕ} :
    generator ^ r % g.order = generator ^ s % g.order ↔
      r % (g.ringDim / 2) = s % (g.ringDim / 2) := by
  have : NeZero g.order := ⟨Nat.ne_of_gt (Nat.zero_lt_of_lt g.one_lt_order)⟩
  rw [← val_unitFive_pow, ← val_unitFive_pow, (ZMod.val_injective _).eq_iff, Units.val_inj,
    pow_inj_mod, orderOf_unitFive]

/-! ### The residues -/

/-- No power is listed twice. -/
theorem nodup_rotations (g : Geometry) : (rotations g).elements.toList.Nodup := by
  rw [toList_rotations]
  refine List.Nodup.map_on (fun r hr s hs h => ?_) List.nodup_range
  rwa [generator_pow_mod_eq_iff, Nat.mod_eq_of_lt (List.mem_range.1 hr),
    Nat.mod_eq_of_lt (List.mem_range.1 hs)] at h

/-- A rotation is a power of five. -/
theorem mem_rotations_iff_exists {k : ℕ} :
    k ∈ (rotations g).elements ↔ ∃ r < g.ringDim / 2, generator ^ r % g.order = k := by
  rw [← Array.mem_toList_iff, toList_rotations, List.mem_map]
  simp only [List.mem_range]

/-- A power of five is congruent to one modulo four. -/
theorem generator_pow_mod_four (g : Geometry) (r : ℕ) : generator ^ r % g.order % 4 = 1 := by
  obtain ⟨n, horder, -⟩ := exists_order_eq g
  have hdvd : 4 ∣ g.order := by
    rw [horder, Nat.pow_add]
    exact Nat.dvd_mul_left _ _
  rw [Nat.mod_mod_of_dvd _ hdvd, Nat.pow_mod]
  exact congrArg (· % 4) (Nat.one_pow r)

/-- **Rotations are residues.** What is listed are the residues that are congruent to one modulo
four. -/
theorem mem_rotations_iff {k : ℕ} :
    k ∈ (rotations g).elements ↔ k < g.order ∧ k % 4 = 1 := by
  let residues := (Finset.range g.order).filter fun k => k % 4 = 1
  -- there are no more residues than rotations, and all rotations are residues
  have hcard : residues.card ≤ (rotations g).elements.toList.toFinset.card := by
    obtain ⟨n, horder, hcount⟩ := exists_order_eq g
    have hsub : residues ⊆ (Finset.range (g.ringDim / 2)).image fun i => 4 * i + 1 := by
      intro k hk
      obtain ⟨hlt, hmod⟩ := Finset.mem_filter.1 hk
      rw [Finset.mem_range, horder, Nat.pow_add] at hlt
      refine Finset.mem_image.2 ⟨k / 4, Finset.mem_range.2 ?_, by omega⟩
      rw [hcount]
      omega
    rw [List.toFinset_card_of_nodup (nodup_rotations g), toList_rotations, List.length_map,
      List.length_range]
    refine (Finset.card_le_card hsub).trans (Finset.card_image_le.trans ?_)
    rw [Finset.card_range]
  have hall : (rotations g).elements.toList.toFinset ⊆ residues := by
    intro k hk
    rw [List.mem_toFinset, Array.mem_toList_iff, mem_rotations_iff_exists] at hk
    obtain ⟨r, -, rfl⟩ := hk
    have hlt : generator ^ r % g.order < g.order :=
      Nat.mod_lt _ (Nat.zero_lt_of_lt g.one_lt_order)
    exact Finset.mem_filter.2 ⟨Finset.mem_range.2 hlt, generator_pow_mod_four g r⟩
  have hsame := Finset.eq_of_subset_of_card_le hall hcard
  rw [← Array.mem_toList_iff, ← List.mem_toFinset, hsame, Finset.mem_filter, Finset.mem_range]

/-- **Rotations are a subgroup.** What is listed is the subgroup that five generates. -/
theorem mem_rotations_iff_mem_zpowers (u : (ZMod g.order)ˣ) :
    (u : ZMod g.order).val ∈ (rotations g).elements ↔ u ∈ Subgroup.zpowers (unitFive g) := by
  have : NeZero g.order := ⟨Nat.ne_of_gt (Nat.zero_lt_of_lt g.one_lt_order)⟩
  rw [mem_rotations_iff_exists, mem_zpowers_iff_mem_range_orderOf, orderOf_unitFive]
  simp only [Finset.mem_image, Finset.mem_range, ← val_unitFive_pow,
    (ZMod.val_injective g.order).eq_iff, Units.val_inj]

/-! ### Steps -/

/-- There are rotations. -/
theorem size_rotations_pos (g : Geometry) : 0 < (rotations g).size := by
  obtain ⟨n, -, hcount⟩ := exists_order_eq g
  rw [size_rotations, hcount]
  exact Nat.two_pow_pos n

/-- Steps are added modulo their number when their exponents are multiplied. -/
theorem element_rotations_add (g : Geometry) (r s : ℕ) :
    (rotations g).element ((r + s) % (rotations g).size) =
      .ok (generator ^ r % g.order * (generator ^ s % g.order) % g.order) := by
  have hturn : generator ^ ((r + s) % (rotations g).size) % g.order =
      generator ^ (r + s) % g.order :=
    (generator_pow_mod_eq_iff g).2 (by rw [size_rotations, Nat.mod_mod])
  rw [element_rotations (Nat.mod_lt _ (size_rotations_pos g)), hturn, ← Nat.mul_mod, ← Nat.pow_add]

/-- The exponents of two steps have the product one exactly when the steps make a whole turn. -/
theorem generator_pow_mul_eq_one_iff (g : Geometry) (r t : ℕ) :
    generator ^ r % g.order * (generator ^ t % g.order) % g.order = 1 ↔
      (r + t) % (rotations g).size = 0 := by
  have hone : generator ^ 0 % g.order = 1 := Nat.mod_eq_of_lt g.one_lt_order
  rw [← Nat.mul_mod, ← Nat.pow_add, ← hone, generator_pow_mod_eq_iff, size_rotations, Nat.zero_mod]

/-- A step is undone by the one that completes the turn. -/
theorem inverseStep_rotations {r : ℕ} (hr : r < (rotations g).size) :
    (rotations g).inverseStep r =
      .ok (some (((rotations g).size - r) % (rotations g).size)) := by
  obtain ⟨found, hfound, hleast⟩ := inverseStep_spec (g := g) .rotations hr
  rw [hfound]
  refine congrArg Except.ok ((hleast _).2 ⟨?_, ?_⟩)
  · refine ⟨_, _, getElem?_rotations hr,
      getElem?_rotations (Nat.mod_lt _ (size_rotations_pos g)),
      (generator_pow_mul_eq_one_iff g _ _).2 ?_⟩
    rw [Nat.add_mod_mod, Nat.add_sub_of_le (Nat.le_of_lt hr), Nat.mod_self]
  · rintro t ⟨k, e, hk, he, hone⟩
    obtain ⟨ht, -⟩ := Array.getElem?_eq_some_iff.1 he
    rw [getElem?_rotations hr, Option.some.injEq] at hk
    rw [getElem?_rotations ht, Option.some.injEq] at he
    subst hk he
    rw [generator_pow_mul_eq_one_iff] at hone
    -- the two steps make no turn or one, and none only when both are zero
    rcases Nat.eq_zero_or_pos r with rfl | hpos
    · rw [Nat.sub_zero, Nat.mod_self]
      exact Nat.zero_le t
    · have hle : (rotations g).size ≤ r + t :=
        Nat.le_of_dvd (Nat.add_pos_left hpos t) (Nat.dvd_of_mod_eq_zero hone)
      exact (Nat.mod_le _ _).trans (Nat.sub_le_iff_le_add'.2 hle)

/-- **The rotations.** They are half as many as there are coefficients, no two of them are the same,
and they are the residues modulo the order that are congruent to one modulo four, which make the
subgroup of units that five generates. So the exponents of two steps have as their product modulo
the order the exponent of the sum of the steps modulo their number, and a step is undone by the one
that completes a turn. While ten times the ring dimension is a word, so is the product of every
rotation with five. -/
theorem rotations_subgroup (g : Geometry) :
    let steps := rotations g
    steps.order = g.order ∧ steps.size = g.ringDim / 2 ∧ steps.elements.toList.Nodup ∧
      (∀ k, k ∈ steps.elements ↔ k < g.order ∧ k % 4 = 1) ∧
      (∀ u : (ZMod g.order)ˣ,
        (u : ZMod g.order).val ∈ steps.elements ↔ u ∈ Subgroup.zpowers (unitFive g)) ∧
      (∀ r < steps.size, ∀ s < steps.size, ∃ k e,
        steps.element r = .ok k ∧ steps.element s = .ok e ∧
          steps.element ((r + s) % (g.ringDim / 2)) = .ok (k * e % g.order)) ∧
      (∀ r < steps.size, steps.inverseStep r = .ok (some ((steps.size - r) % steps.size))) ∧
      (10 * g.ringDim < 2 ^ 64 → ∀ k ∈ steps.elements, k * generator < 2 ^ 64) := by
  refine ⟨rfl, size_rotations g, nodup_rotations g, fun k => mem_rotations_iff,
    mem_rotations_iff_mem_zpowers, fun r hr s hs => ?_, fun r hr => inverseStep_rotations hr,
    fun hwords k hk => ?_⟩
  · refine ⟨_, _, element_rotations hr, element_rotations hs, ?_⟩
    rw [← size_rotations]
    exact element_rotations_add g r s
  · have hlt := (mem_rotations_iff.1 hk).1
    rw [Geometry.order] at hlt
    rw [generator]
    omega

end GaloisSteps

end RnsEngine
