import RnsEngine.Proofs.Galois.Substitution
import RnsEngine.Proofs.Transform.Evaluation

/-!
# Automorphisms and spectra

The forward transform of a tile holds the values of its polynomial at the odd powers of a root, and
the value of `a(X ^ k)` at a power of the root is the value of `a` at the `k`-th power of it. Since
`k` is odd this is one of the odd powers again, the one at `Galois.origin`. So an automorphism moves
the words of the spectrum about without changing any: `Galois.transform_automorphism`.
-/

namespace RnsEngine

namespace Galois

variable {g : Geometry} {k : ℕ}

/-! ### Values of a substitution -/

/-- Where the value stands that a substitution brings to a place of the spectrum. -/
def origin (g : Geometry) (k : ℕ) (j : Fin g.ringDim) : Fin g.ringDim :=
  ⟨k * (2 * j.val + 1) % g.order / 2, Nat.div_lt_of_lt_mul
    (Nat.mod_lt _ (Nat.mul_pos Nat.two_pos g.ringDim_pos))⟩

/-- An odd multiple of an odd power is an odd power. -/
theorem two_mul_origin_add_one (hk : Odd k) (j : Fin g.ringDim) :
    2 * (origin g k j).val + 1 = k * (2 * j.val + 1) % g.order := by
  have hodd : Odd (k * (2 * j.val + 1) % g.order) :=
    g.odd_mod_order_iff.2 (hk.mul ⟨j.val, rfl⟩)
  exact Nat.two_mul_div_two_add_one_of_odd hodd

/-- The origin is the only place with its odd number. -/
theorem eq_origin_iff (hk : Odd k) (i j : Fin g.ringDim) :
    2 * i.val + 1 ≡ k * (2 * j.val + 1) [MOD g.order] ↔ i = origin g k j := by
  have hlt : 2 * i.val + 1 < g.order := by
    have := i.isLt
    rw [Geometry.order]
    omega
  rw [Nat.ModEq, Nat.mod_eq_of_lt hlt, ← two_mul_origin_add_one hk, Fin.ext_iff]
  omega

/-- The values of a substitution are those of the polynomial, at their origins. -/
theorem values_substitute {R : Type} [CommRing R] (hk : Odd k) {psi : R}
    (hpsi : psi ^ g.ringDim = -1) (f : Fin g.ringDim → R) (j : Fin g.ringDim) :
    Negacyclic.values psi (Negacyclic.substitute k f) j =
      Negacyclic.values psi f (origin g k j) := by
  have horder : psi ^ g.order = 1 := by
    rw [Geometry.order, Nat.mul_comm, pow_mul, hpsi, neg_one_sq]
  have hpower : (psi ^ (2 * j.val + 1)) ^ k = psi ^ (2 * (origin g k j).val + 1) := by
    rw [two_mul_origin_add_one hk, ← pow_mul, Nat.mul_comm, pow_eq_pow_mod _ horder]
  rw [Negacyclic.values_apply, Negacyclic.values_apply, ← hpower]
  exact Negacyclic.evaluate_substitute g.ringDim_pos (Negacyclic.odd_pow_pow hpsi j) k f

/-! ### Spectra -/

/-- **Automorphisms permute spectra.** Let a table be made of given exponents and one of its steps
applied to a reduced tile. In every channel, and with the table of factors of every root in it, the
word at place `j` of the transform is the one of the transform of the tile at the only place whose
odd number is `k` times the one of `j` modulo the order. The modulus does not have to be a prime,
and what the buffers held does not matter. -/
theorem transform_automorphism (g : Geometry) (c : Channel) {psi : UInt64} {t : Table}
    (ht : Table.ofRoot g c psi .forward = .ok t) {elements : List ℕ} {steps : GaloisSteps}
    (hsteps : GaloisSteps.ofElements g elements = .ok steps) {step k : ℕ}
    (hk : elements[step]? = some k) {channels : Array Channel} {index : ℕ}
    (hc : channels[index]? = some c) {a : Tile g.side} (ha : a.Reduced c) (output : Tile g.side)
    (buffers buffers' : Scratch g) :
    ∃ image e e', automorphism a steps step output channels index = .ok image ∧
      Datapath.transform? c t { buffers with tile := a } = some e ∧
      Datapath.transform? c t { buffers' with tile := image } = some e' ∧
      ∀ j : Fin g.ringDim, ∃ j' : Fin g.ringDim,
        (∀ i : Fin g.ringDim, 2 * i.val + 1 ≡ k * (2 * j.val + 1) [MOD g.order] ↔ i = j') ∧
          e'.tile.words.get j = e.tile.words.get j' := by
  obtain ⟨horder, hodd, helements⟩ := GaloisSteps.ofElements_spec hsteps
  have hkodd : Odd k := hodd k (List.mem_of_getElem? hk)
  have helement : steps.elements[step]? = some (k % g.order) := by
    rw [← Array.getElem?_toList, helements, List.getElem?_map, hk]
    rfl
  have himage := automorphism_eq_ok ⟨horder, helement, hc⟩ a output
  rw [substitute_mod] at himage
  obtain ⟨hreduced, hresidues⟩ := substitute_spec hkodd ha output
  obtain ⟨e, he, hereduced, hvalues⟩ :=
    Datapath.transform?_spec ht (d := { buffers with tile := a }) ha
  obtain ⟨e', he', hereduced', hvalues'⟩ :=
    Datapath.transform?_spec ht (d := { buffers' with tile := substitute c k a output }) hreduced
  refine ⟨_, e, e', himage, he, he', fun j => ⟨origin g k j, fun i => eq_origin_iff hkodd i j,
    c.eq_of_residue (hereduced' j) (hereduced _) ?_⟩⟩
  have hroot := (Table.ofRoot_forward_eq_ok ht).1
  calc c.residue (e'.tile.words.get j)
      = Negacyclic.values (c.residue psi) ((substitute c k a output).residues c) j :=
        congrFun hvalues' j
    _ = Negacyclic.values (c.residue psi) (Negacyclic.substitute k (a.residues c)) j := by
        rw [hresidues]
    _ = Negacyclic.values (c.residue psi) (a.residues c) (origin g k j) :=
        values_substitute hkodd hroot _ j
    _ = c.residue (e.tile.words.get (origin g k j)) := (congrFun hvalues _).symm

/-- Modulo `3 ^ 16 + 1`, where `3` is a root of sixteen words: with `X ^ 37` in the place of the
variable, the word at place five is the one at place eleven before, as `37 * 11` and `23` are the
same modulo the order. -/
theorem transform_automorphism_composite :
    ∃ (g : Geometry) (c : Channel) (t : Table) (steps : GaloisSteps) (a image : Tile g.side)
      (e e' : Datapath g) (i j : Fin g.ringDim),
      Table.ofRoot g c 3 .forward = .ok t ∧ GaloisSteps.ofElements g [37] = .ok steps ∧
        a.Reduced c ∧ automorphism a steps 0 Tile.zero #[c] 0 = .ok image ∧
        Datapath.transform? c t { Scratch.blank g with tile := a } = some e ∧
        Datapath.transform? c t { Scratch.blank g with tile := image } = some e' ∧
        j.val = 5 ∧ i.val = 11 ∧ e'.tile.words.get j = e.tile.words.get i := by
  let g : Geometry := ⟨2, 1, by decide, by decide, by decide⟩
  let c : Channel := ⟨43046722, Barrett.ofModulus 43046722, by decide, by decide, rfl⟩
  let a : Tile g.side := ⟨Vector.ofFn fun n => UInt64.ofNat n.val⟩
  have ht : Table.ofRoot g c 3 .forward = .ok (Table.ofFactors g c .forward (3 % c.modulus) 1) := by
    decide +kernel
  have hsteps : GaloisSteps.ofElements g [37] = .ok { order := 32, elements := #[5] } := by decide
  have ha : a.Reduced c := by
    unfold Tile.Reduced
    decide +kernel
  have hk : [37][0]? = some 37 := rfl
  have hc : #[c][0]? = some c := rfl
  obtain ⟨image, e, e', himage, he, he', hmoved⟩ :=
    transform_automorphism g c ht hsteps hk hc ha Tile.zero (Scratch.blank g) (Scratch.blank g)
  obtain ⟨i, hi, hword⟩ := hmoved ⟨5, by decide⟩
  have heleven := (hi ⟨11, by decide⟩).1 (by decide)
  exact ⟨g, c, _, _, a, image, e, e', i, _, ht, hsteps, ha, himage, he, he', rfl,
    congrArg Fin.val heleven.symm, hword⟩

end Galois

end RnsEngine
