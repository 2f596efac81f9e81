import RnsEngine.Geometry
import RnsEngine.Prime.Root
import RnsEngine.Proofs.Channel.Power
import RnsEngine.Proofs.Prime.Decision

/-!
# The root that is found

A root is what the search ends with after the checks of the order and of the modulus
(`Channel.primitiveRoot_eq_ok_iff_search`), and its power with the dimension is minus one.

A root of unity of the order of a geometry is only ever found modulo a prime, and that prime is
greater than the order (`Channel.primitiveRoot_spec`). So neither two nor the ring dimension
vanishes modulo it, which is what the inverse of a transform needs.
-/

namespace RnsEngine

namespace Channel

variable {g : Geometry} {c : Channel}

/-- The remainder vanishes when twice the dimension divides the number before the modulus. -/
theorem mod_shiftLeft_one_eq_zero_iff {dim : UInt64} (hlt : dim.toNat < 2 ^ 63) :
    (c.modulus - 1) % (dim <<< (1 : UInt64)) = 0 ↔ 2 * dim.toNat ∣ c.modulus.toNat - 1 := by
  rw [← UInt64.toNat_inj, UInt64.toNat_mod, toNat_shiftLeft_one hlt, toNat_modulus_sub_one,
    Nat.dvd_iff_mod_eq_zero]
  rfl

/-- What a candidate gives is a root. -/
theorem pow_of_rootOf? {dim order psi : UInt64} {candidate : ℕ}
    (h : c.rootOf? dim order candidate = some psi) : c.pow psi dim.toNat = c.modulus - 1 := by
  simp only [rootOf?] at h
  split at h
  · next hpow =>
    obtain rfl := Option.some.inj h
    exact hpow
  · cases h

/-- A root is found when the checks of the order and of the modulus pass and the search ends with
it. -/
theorem primitiveRoot_eq_ok_iff_search {dim psi : UInt64} :
    c.primitiveRoot dim = .ok psi ↔
      dim <<< 1 ≠ 0 ∧ (c.modulus - 1) % (dim <<< (1 : UInt64)) = 0 ∧
        isPrime c.modulus.toNat = true ∧
          (rootCandidates c.modulus).findSome? (c.rootOf? dim (dim <<< 1)) = some psi := by
  simp only [primitiveRoot]
  split
  · next hzero => exact iff_of_false nofun fun h => h.1 hzero
  next hzero =>
  split
  · next hrefused => exact iff_of_false nofun fun h => hrefused.elim (· h.2.1) (· h.2.2.1)
  next hadmitted =>
  obtain ⟨hmod, hprime⟩ := not_or.1 hadmitted
  rw [not_not] at hmod hprime
  rw [and_iff_right hzero, and_iff_right hmod, and_iff_right hprime]
  cases (rootCandidates c.modulus).findSome? (c.rootOf? dim (dim <<< 1)) with
  | none => exact iff_of_false nofun nofun
  | some root => rw [Except.ok.injEq, Option.some.injEq]

/-- The power with the dimension of a root that is found is minus one. -/
theorem residue_pow_of_primitiveRoot {dim psi : UInt64} (h : c.primitiveRoot dim = .ok psi) :
    c.residue psi ^ dim.toNat = -1 := by
  obtain ⟨-, -, -, hfound⟩ := primitiveRoot_eq_ok_iff_search.1 h
  -- the candidate that gave the root does not matter, the root was checked
  obtain ⟨candidate, -, hroot⟩ := List.exists_of_findSome?_eq_some hfound
  exact (c.pow_eq_modulus_sub_one_iff psi dim.toNat).1 (pow_of_rootOf? hroot)

/-- A root of the order of a geometry that is found belongs to a prime above the order, and its
power with the ring dimension is minus one. -/
theorem primitiveRoot_spec {psi : UInt64}
    (h : c.primitiveRoot (UInt64.ofNat g.ringDim) = .ok psi) :
    c.modulus.toNat.Prime ∧ g.order < c.modulus.toNat ∧ c.residue psi ^ g.ringDim = -1 := by
  obtain ⟨-, hmod, hprime, -⟩ := primitiveRoot_eq_ok_iff_search.1 h
  have hpow := residue_pow_of_primitiveRoot h
  have hdim := g.toNat_ringDim
  have hlt : (UInt64.ofNat g.ringDim).toNat < 2 ^ 63 := by
    have horder := g.order_lt
    rw [Geometry.order] at horder
    omega
  have hdvd := (mod_shiftLeft_one_eq_zero_iff hlt).1 hmod
  rw [hdim] at hdvd hpow
  have hle := Nat.le_of_dvd (Nat.sub_pos_of_lt c.two_le_toNat) hdvd
  exact ⟨prime_of_isPrime hprime, hle.trans_lt (Nat.sub_lt c.modulus_pos Nat.one_pos), hpow⟩

/-- Above the order, the ring dimension does not vanish. -/
theorem ringDim_ne_zero (h : g.order < c.modulus.toNat) :
    (g.ringDim : ZMod c.modulus.toNat) ≠ 0 := by
  intro hzero
  have hle := Nat.le_of_dvd g.ringDim_pos ((ZMod.natCast_eq_zero_iff _ _).1 hzero)
  rw [Geometry.order] at h
  omega

end Channel

end RnsEngine
