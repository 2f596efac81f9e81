import Mathlib.NumberTheory.LegendreSymbol.Basic
import Mathlib.Order.Bounds.Basic
import RnsEngine.Proofs.Basis
import RnsEngine.Proofs.Prime.Exact

/-!
# When a root is found

A candidate gives a root exactly when it is no square modulo the prime: the power of the root with
the dimension is the power of the candidate with half the prime, which is minus one by Euler's
criterion (`Channel.rootOf?_ne_none_iff`). So the search finds what the least small non-residue
gives (`Channel.nonResidues`, `Channel.primitiveRoot_eq_ok_iff`), and gives up on a prime that suits
the dimension only when it has none below the bound of the candidates.

For a dimension that is a power of two, minus one as its power means that the root has exactly
twice the dimension as its order (`Channel.orderOf_of_pow_eq_neg_one`). A root that is found has
both its tables, so that channels are refused a basis only for want of a root
(`Channel.primitiveRoot_outcome`).
-/

namespace RnsEngine

/-- Modulo an odd prime, what does not vanish is no square exactly when its power with half the
prime is minus one. -/
theorem pow_half_eq_neg_one_iff {p : ℕ} [Fact p.Prime] (hp : p ≠ 2) {a : ZMod p} (ha : a ≠ 0) :
    a ^ (p / 2) = -1 ↔ ¬ IsSquare a := by
  have : Fact (2 < p) := ⟨Nat.lt_of_le_of_ne (Fact.out : p.Prime).two_le hp.symm⟩
  rw [ZMod.euler_criterion p ha]
  constructor
  · intro h hone
    exact ZMod.neg_one_ne_one (h.symm.trans hone)
  · exact (ZMod.pow_div_two_eq_neg_one_or_one p ha).resolve_left

/-- A search along an increasing list finds what the least number gives that gives anything. -/
theorem findSome?_eq_some_iff_isLeast {β : Type} {f : ℕ → Option β} {b : β} {l : List ℕ}
    (hl : l.Pairwise (· < ·)) :
    l.findSome? f = some b ↔ ∃ x, IsLeast {x | x ∈ l ∧ f x ≠ none} x ∧ f x = some b := by
  induction l with
  | nil =>
    constructor
    · nofun
    · rintro ⟨x, hx, -⟩
      exact absurd hx.1.1 List.not_mem_nil
  | cons y l ih =>
    obtain ⟨hy, hl⟩ := List.pairwise_cons.1 hl
    cases hfy : f y with
    | some b' =>
      have hleast : IsLeast {x | x ∈ y :: l ∧ f x ≠ none} y := by
        refine ⟨⟨List.mem_cons_self, by rw [hfy]; exact Option.some_ne_none _⟩, fun x hx => ?_⟩
        rcases List.mem_cons.1 hx.1 with rfl | hmem
        · exact Nat.le_refl _
        · exact Nat.le_of_lt (hy x hmem)
      rw [List.findSome?_cons, hfy]
      constructor
      · intro h
        exact ⟨y, hleast, hfy.trans h⟩
      · rintro ⟨x, hx, hfx⟩
        rw [hx.unique hleast] at hfx
        exact hfy.symm.trans hfx
    | none =>
      have hset : {x | x ∈ y :: l ∧ f x ≠ none} = {x | x ∈ l ∧ f x ≠ none} := by
        ext x
        refine and_congr_left fun hx => ?_
        rw [List.mem_cons, or_iff_right]
        rintro rfl
        exact hx hfy
      rw [List.findSome?_cons, hfy, hset]
      exact ih hl

namespace Channel

/-- The small numbers that are no squares modulo the channel. -/
def nonResidues (c : Channel) : Set ℕ :=
  {x | 2 ≤ x ∧ x < min c.modulus.toNat candidateBound ∧ ¬ IsSquare (x : ZMod c.modulus.toNat)}

variable {c : Channel} {dim : UInt64}

/-! ### Candidates -/

/-- The candidates are the numbers from two up to the bound, or up to a smaller modulus. -/
theorem mem_rootCandidates {x : ℕ} :
    x ∈ rootCandidates c.modulus ↔ 2 ≤ x ∧ x < min c.modulus.toNat candidateBound := by
  have htwo : 2 ≤ min c.modulus.toNat candidateBound := le_min c.two_le_toNat (by decide)
  rw [rootCandidates, List.mem_range'_1, Nat.add_sub_cancel' htwo]

/-- The word of a candidate has its number. -/
theorem toNat_of_mem_rootCandidates {x : ℕ} (hx : x ∈ rootCandidates c.modulus) :
    (UInt64.ofNat x).toNat = x := by
  have hbound : x < candidateBound := lt_of_lt_of_le (mem_rootCandidates.1 hx).2 (min_le_right _ _)
  exact UInt64.toNat_ofNat_of_lt' (hbound.trans (by decide))

/-- The exponent that makes a root of a candidate. -/
theorem toNat_cofactor (hlt : dim.toNat < 2 ^ 63) :
    ((c.modulus - 1) / (dim <<< (1 : UInt64))).toNat = (c.modulus.toNat - 1) / (2 * dim.toNat) := by
  rw [UInt64.toNat_div, toNat_modulus_sub_one, toNat_shiftLeft_one hlt]

/-- The order of a root of a positive dimension is not zero. -/
theorem shiftLeft_one_ne_zero (hpos : 1 ≤ dim.toNat) (hlt : dim.toNat < 2 ^ 63) :
    dim <<< 1 ≠ 0 := by
  intro h
  have hzero := congrArg UInt64.toNat h
  rw [toNat_shiftLeft_one hlt, UInt64.toNat_zero] at hzero
  omega

/-- What a candidate gives is a power of it. -/
theorem toNat_of_rootOf? (hlt : dim.toNat < 2 ^ 63) {x : ℕ} (hx : x ∈ rootCandidates c.modulus)
    {psi : UInt64} (h : c.rootOf? dim (dim <<< 1) x = some psi) :
    psi.toNat = x ^ ((c.modulus.toNat - 1) / (2 * dim.toNat)) % c.modulus.toNat := by
  simp only [rootOf?] at h
  split at h
  · rw [← Option.some.inj h, toNat_pow, toNat_cofactor hlt, toNat_of_mem_rootCandidates hx]
  · cases h

/-- A modulus that suits a dimension is odd, and the power of a root with the dimension has half the
modulus as its exponent. -/
theorem cofactor_mul_eq_half (hdvd : 2 * dim.toNat ∣ c.modulus.toNat - 1) :
    c.modulus.toNat ≠ 2 ∧
      (c.modulus.toNat - 1) / (2 * dim.toNat) * dim.toNat = c.modulus.toNat / 2 := by
  obtain ⟨cofactor, hcofactor⟩ := hdvd
  have hpos : 0 < c.modulus.toNat - 1 := Nat.sub_pos_of_lt c.two_le_toNat
  have hdim : 0 < 2 * dim.toNat := by
    refine Nat.pos_of_ne_zero fun hzero => ?_
    rw [hzero, Nat.zero_mul] at hcofactor
    omega
  have hhalf : c.modulus.toNat - 1 = 2 * (cofactor * dim.toNat) := by
    rw [hcofactor, Nat.mul_assoc, Nat.mul_comm cofactor]
  rw [hcofactor, Nat.mul_div_cancel_left _ hdim]
  omega

/-- Modulo a prime that suits the dimension, the candidates that give a root are those that are no
squares. -/
theorem rootOf?_ne_none_iff (hlt : dim.toNat < 2 ^ 63) (hprime : c.modulus.toNat.Prime)
    (hdvd : 2 * dim.toNat ∣ c.modulus.toNat - 1) {x : ℕ} (hx : x ∈ rootCandidates c.modulus) :
    c.rootOf? dim (dim <<< 1) x ≠ none ↔ ¬ IsSquare (x : ZMod c.modulus.toNat) := by
  have := Fact.mk hprime
  obtain ⟨htwo, hxlt⟩ := mem_rootCandidates.1 hx
  have hx0 : (x : ZMod c.modulus.toNat) ≠ 0 := by
    rw [Ne, ZMod.natCast_eq_zero_iff]
    exact Nat.not_dvd_of_pos_of_lt (Nat.zero_lt_of_lt htwo) (hxlt.trans_le (min_le_left _ _))
  obtain ⟨hodd, hhalf⟩ := cofactor_mul_eq_half hdvd
  have hroot : c.rootOf? dim (dim <<< 1) x ≠ none ↔
      c.residue (c.pow (UInt64.ofNat x) ((c.modulus - 1) / (dim <<< (1 : UInt64))).toNat) ^
        dim.toNat = -1 := by
    rw [← pow_eq_modulus_sub_one_iff]
    simp [rootOf?]
  rw [hroot, residue_pow, residue, toNat_of_mem_rootCandidates hx, toNat_cofactor hlt, ← pow_mul,
    hhalf, pow_half_eq_neg_one_iff hodd hx0]

/-! ### The search -/

/-- Modulo a prime that suits the dimension, the search finds the power of the least small
non-residue. -/
theorem findSome?_rootOf?_eq_some_iff (hlt : dim.toNat < 2 ^ 63) (hprime : c.modulus.toNat.Prime)
    (hdvd : 2 * dim.toNat ∣ c.modulus.toNat - 1) {psi : UInt64} :
    (rootCandidates c.modulus).findSome? (c.rootOf? dim (dim <<< 1)) = some psi ↔
      ∃ x, IsLeast c.nonResidues x ∧
        psi.toNat = x ^ ((c.modulus.toNat - 1) / (2 * dim.toNat)) % c.modulus.toNat := by
  have hgiving : {x | x ∈ rootCandidates c.modulus ∧ c.rootOf? dim (dim <<< 1) x ≠ none} =
      c.nonResidues := by
    ext x
    rw [Set.mem_ofPred_eq, nonResidues, Set.mem_ofPred_eq, ← and_assoc, ← mem_rootCandidates]
    exact and_congr_right (rootOf?_ne_none_iff hlt hprime hdvd)
  have hincreasing : (rootCandidates c.modulus).Pairwise (· < ·) := List.pairwise_lt_range'
  rw [findSome?_eq_some_iff_isLeast hincreasing, hgiving]
  refine exists_congr fun x => and_congr_right fun hx => ?_
  obtain ⟨hmem, hsome⟩ := hgiving.ge hx.1
  obtain ⟨psi', hpsi'⟩ := Option.ne_none_iff_exists'.1 hsome
  rw [hpsi', Option.some.injEq, ← UInt64.toNat_inj, toNat_of_rootOf? hlt hmem hpsi', eq_comm]

/-- A root is found modulo a prime that suits the dimension and has a small non-residue, and it is
the power of the least of them. -/
theorem primitiveRoot_eq_ok_iff (hpos : 1 ≤ dim.toNat) (hlt : dim.toNat < 2 ^ 63) {psi : UInt64} :
    c.primitiveRoot dim = .ok psi ↔
      c.modulus.toNat.Prime ∧ 2 * dim.toNat ∣ c.modulus.toNat - 1 ∧
        ∃ x, IsLeast c.nonResidues x ∧
          psi.toNat = x ^ ((c.modulus.toNat - 1) / (2 * dim.toNat)) % c.modulus.toNat := by
  rw [primitiveRoot_eq_ok_iff_search, and_iff_right (shiftLeft_one_ne_zero hpos hlt),
    mod_shiftLeft_one_eq_zero_iff hlt, isPrime_iff, and_left_comm]
  refine and_congr_right fun hprime => and_congr_right fun hdvd => ?_
  exact findSome?_rootOf?_eq_some_iff hlt hprime hdvd

/-- A root is found as soon as there is a small non-residue. -/
theorem exists_primitiveRoot_iff (hpos : 1 ≤ dim.toNat) (hlt : dim.toNat < 2 ^ 63) :
    (∃ psi, c.primitiveRoot dim = .ok psi) ↔
      c.modulus.toNat.Prime ∧ 2 * dim.toNat ∣ c.modulus.toNat - 1 ∧ c.nonResidues.Nonempty := by
  constructor
  · rintro ⟨psi, h⟩
    obtain ⟨hprime, hdvd, x, hx, -⟩ := (primitiveRoot_eq_ok_iff hpos hlt).1 h
    exact ⟨hprime, hdvd, x, hx.1⟩
  · rintro ⟨hprime, hdvd, hne⟩
    have hleast : IsLeast c.nonResidues (sInf c.nonResidues) := isLeast_csInf hne
    have hmem := mem_rootCandidates.2 ⟨hleast.1.1, hleast.1.2.1⟩
    refine ⟨c.pow (UInt64.ofNat (sInf c.nonResidues))
      ((c.modulus.toNat - 1) / (2 * dim.toNat)), ?_⟩
    refine (primitiveRoot_eq_ok_iff hpos hlt).2 ⟨hprime, hdvd, _, hleast, ?_⟩
    rw [toNat_pow, toNat_of_mem_rootCandidates hmem]

/-- A dimension below half the words is refused a root for nothing else than that there is none. -/
theorem primitiveRoot_eq_error (hpos : 1 ≤ dim.toNat) (hlt : dim.toNat < 2 ^ 63) {e : Fault}
    (h : c.primitiveRoot dim = .error e) : e = .noPrimitiveRoot c.modulus (dim <<< 1) := by
  simp only [primitiveRoot] at h
  rw [if_neg (shiftLeft_one_ne_zero hpos hlt)] at h
  split at h
  · exact (Except.error.inj h).symm
  split at h
  · cases h
  · exact (Except.error.inj h).symm

/-! ### The order of a root -/

/-- Where a power with a power of two is minus one, the order is the next power of two. -/
theorem orderOf_of_pow_eq_neg_one {p : ℕ} (hp : 2 < p) {a : ZMod p} {k : ℕ}
    (h : a ^ 2 ^ k = -1) : orderOf a = 2 ^ (k + 1) := by
  have : Fact (2 < p) := ⟨hp⟩
  have : Fact (Nat.Prime 2) := ⟨Nat.prime_two⟩
  refine orderOf_eq_prime_pow ?_ ?_
  · rw [h]
    exact ZMod.neg_one_ne_one
  · rw [pow_succ, pow_mul, h, neg_one_sq]

/-- **When a root is found.** A root for a dimension is found exactly modulo a prime that is one more
than a multiple of twice the dimension and that has a non-residue among the candidates. It is the
power of the least of them, and its power with the dimension is minus one; if the dimension is a
power of two, its order is twice the dimension. For the ring dimension of a geometry it is accepted
as a root by the tables of both directions, and a basis of channels is refused for nothing but a
root that is not found. -/
theorem primitiveRoot_outcome {dim : UInt64} (hpos : 1 ≤ dim.toNat) (hlt : dim.toNat < 2 ^ 63)
    (c : Channel) :
    ((∃ psi, c.primitiveRoot dim = .ok psi) ↔
      c.modulus.toNat.Prime ∧ 2 * dim.toNat ∣ c.modulus.toNat - 1 ∧ c.nonResidues.Nonempty) ∧
    (∀ e, c.primitiveRoot dim = .error e → e = .noPrimitiveRoot c.modulus (dim <<< 1)) ∧
    (∀ psi, c.primitiveRoot dim = .ok psi →
      (∃ x, IsLeast c.nonResidues x ∧
        psi.toNat = x ^ ((c.modulus.toNat - 1) / (2 * dim.toNat)) % c.modulus.toNat) ∧
      psi.toNat ^ dim.toNat % c.modulus.toNat = c.modulus.toNat - 1 ∧
      (dim.toNat.isPowerOfTwo →
        orderOf (psi.toNat : ZMod c.modulus.toNat) = 2 * dim.toNat) ∧
      ∀ g : Geometry, g.ringDim = dim.toNat →
        Table.IsRoot g c psi ∧ ∀ d, ∃ t, Table.ofRoot g c psi d = .ok t) ∧
    ∀ g : Geometry, g.ringDim = dim.toNat → ∀ channels : List Channel, channels ≠ [] → ∀ e,
      Basis.ofChannels g channels = .error e ↔
        channels.mapM (·.primitiveRoot dim) = .error e := by
  have hword {g : Geometry} (hg : g.ringDim = dim.toNat) : UInt64.ofNat g.ringDim = dim := by
    rw [hg, UInt64.ofNat_toNat]
  refine ⟨exists_primitiveRoot_iff hpos hlt, fun e => primitiveRoot_eq_error hpos hlt, ?_, ?_⟩
  · intro psi h
    obtain ⟨-, hdvd, hleast⟩ := (primitiveRoot_eq_ok_iff hpos hlt).1 h
    have hpow := residue_pow_of_primitiveRoot h
    refine ⟨hleast, ?_, ?_, ?_⟩
    · rw [← toNat_pow, (c.pow_eq_modulus_sub_one_iff _ _).2 hpow, toNat_modulus_sub_one]
    · rintro ⟨k, hk⟩
      have hle := Nat.le_of_dvd (Nat.sub_pos_of_lt c.two_le_toNat) hdvd
      rw [hk] at hpow
      rw [hk, ← Nat.pow_succ']
      exact orderOf_of_pow_eq_neg_one (by omega) hpow
    · intro g hg
      rw [← hword hg] at h
      rw [← hg] at hpow
      exact ⟨(Table.isRoot_iff g c psi).2 hpow, TabledChannel.exists_ofRoot_of_found h⟩
  · intro g hg channels hne e
    rw [Basis.ofChannels_eq_error_iff hne, hword hg]

/-- Modulo ninety-seven the least non-residue has the root of order thirty-two for sixteen words as
its third power. -/
theorem primitiveRoot_outcome_small :
    ∃ c : Channel, c.modulus = 97 ∧ c.primitiveRoot 16 = .ok 28 ∧
      (∃ x, IsLeast c.nonResidues x ∧ 28 = x ^ 3 % 97) ∧
      orderOf ((28 : ℕ) : ZMod 97) = 32 ∧
      ∀ d, ∃ t, Table.ofRoot Basis.smallGeometry c 28 d = .ok t := by
  let c : Channel := ⟨97, Barrett.ofModulus 97, by decide, by decide, rfl⟩
  have hfound : c.primitiveRoot 16 = .ok 28 := by decide +kernel
  obtain ⟨-, -, hroot, -⟩ := @primitiveRoot_outcome 16 (by decide) (by decide) c
  obtain ⟨⟨x, hleast, hpsi⟩, -, horder, htables⟩ := hroot 28 hfound
  have hexponent : (c.modulus.toNat - 1) / (2 * (16 : UInt64).toNat) = 3 := by decide
  rw [hexponent] at hpsi
  exact ⟨c, rfl, hfound, ⟨x, hleast, hpsi⟩, horder ⟨4, rfl⟩, (htables Basis.smallGeometry rfl).2⟩

end Channel

end RnsEngine
