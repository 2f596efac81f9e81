import Mathlib.Data.Fintype.EquivFin
import RnsEngine.Galois.Automorphism
import RnsEngine.Proofs.Galois.Steps
import RnsEngine.Proofs.Ring.Remainder
import RnsEngine.Ring.Residues

/-!
# Substitutions in tiles

For an odd exponent no two coefficients of a tile land in one place
(`Galois.destination_bijective`), and the sign that a coefficient lands with is the one of its
exponent: it is negated when it has passed the ring dimension an odd number of times
(`Galois.signed_spec`). So the tile that is written is the substitution of the polynomial that the
input stands for, in every channel and whatever was written over (`Galois.substitute_spec`).

Laws of substitution in polynomials therefore are laws of tiles: two substitutions make one
(`Galois.substitute_substitute`), and the exponents that are inverse to each other modulo the order
undo each other (`Galois.substitute_cancel`).

An automorphism is the substitution of the exponent that its step selects
(`Galois.automorphism_eq_ok`).
-/

namespace RnsEngine

namespace Galois

variable {g : Geometry} {k : ℕ}

/-! ### Places -/

/-- A coefficient lands at its exponent modulo the ring dimension. -/
theorem val_destination (g : Geometry) (k : ℕ) (n : Fin g.ringDim) :
    (destination g k n).val = n.val * k % g.ringDim :=
  Nat.mod_mul_left_mod _ 2 _

/-- For an odd exponent, distinct coefficients land in distinct places. -/
theorem destination_injective (g : Geometry) (hk : Odd k) :
    Function.Injective (destination g k) := by
  intro m n h
  have hcoprime : g.ringDim.Coprime k := by
    rw [g.ringDim_eq]
    exact Nat.Coprime.pow_left _ (Nat.coprime_two_left.2 hk)
  have hmod : m.val * k ≡ n.val * k [MOD g.ringDim] := by
    rw [Nat.ModEq, ← val_destination, ← val_destination, h]
  exact Fin.ext
    ((Nat.ModEq.cancel_right_of_coprime hcoprime hmod).eq_of_lt_of_lt m.isLt n.isLt)

/-- For an odd exponent, every place is where just one coefficient lands. -/
theorem destination_bijective (g : Geometry) (hk : Odd k) :
    Function.Bijective (destination g k) :=
  Finite.injective_iff_bijective.1 (destination_injective g hk)

/-- Numbers with an odd product modulo the order are odd. -/
theorem odd_of_mul_mod_order {d : ℕ} (h : k * d % g.order = 1) : Odd d :=
  (Nat.odd_mul.1 (g.odd_mod_order_iff.1 (h ▸ odd_one))).2

/-! ### Signs -/

/-- An exponent is in the second half when it has passed the ring dimension an odd number of
times. -/
theorem ringDim_le_exponent_iff (g : Geometry) (k n : ℕ) :
    g.ringDim ≤ exponent g k n ↔ Odd (n * k / g.ringDim) := by
  have hdiv : exponent g k n / g.ringDim = n * k / g.ringDim % 2 :=
    Nat.mod_mul_left_div_self _ _ _
  rw [Nat.odd_iff, ← hdiv, ← Nat.one_le_div_iff g.ringDim_pos]
  have hle : exponent g k n / g.ringDim ≤ 1 := by omega
  omega

/-- A reduced coefficient lands reduced, with the sign of its exponent. -/
theorem signed_spec (g : Geometry) {c : Channel} (k n : ℕ) {x : UInt64} (hx : x < c.modulus) :
    signed g c k n x < c.modulus ∧
      c.residue (signed g c k n x) = (-1) ^ (n * k / g.ringDim) * c.residue x := by
  rw [signed]
  split
  · next h =>
    have hodd := (ringDim_le_exponent_iff g k n).1 h
    exact ⟨c.neg_lt hx, by rw [c.residue_neg hx, hodd.neg_one_pow, neg_one_mul]⟩
  · next h =>
    have heven := Nat.not_odd_iff_even.1 (mt (ringDim_le_exponent_iff g k n).2 h)
    exact ⟨hx, by rw [heven.neg_one_pow, one_mul]⟩

/-- Zero lands as zero. -/
theorem signed_zero (g : Geometry) (c : Channel) (k n : ℕ) : signed g c k n 0 = 0 := by
  rw [signed]
  split
  · rw [Channel.neg, negMod, if_pos rfl]
  · rfl

/-! ### Tiles -/

variable {c : Channel} {a b : Tile g.side}

/-- Every coefficient is found where it lands. -/
theorem words_substitute (hk : Odd k) (c : Channel) (a output : Tile g.side)
    (n : Fin g.ringDim) :
    (substitute c k a output).words.get (destination g k n) =
      signed g c k n (a.words.get n) :=
  getElem_scatter (fun _ _ h => destination_injective g hk h) _ output.words n

/-- What holds of all signed coefficients in their places holds of the whole tile. -/
theorem forall_word_substitute (hk : Odd k) (output : Tile g.side)
    {P : Fin g.ringDim → UInt64 → Prop}
    (h : ∀ n, P (destination g k n) (signed g c k n (a.words.get n))) (m : Fin g.ringDim) :
    P m ((substitute c k a output).words.get m) := by
  obtain ⟨n, rfl⟩ := (destination_bijective g hk).surjective m
  rw [words_substitute hk]
  exact h n

/-- A coefficient of the substitution of an odd power, at the place of one coefficient. -/
theorem substitute_destination {R : Type} [CommRing R] (hk : Odd k) (f : Fin g.ringDim → R)
    (n : Fin g.ringDim) :
    Negacyclic.substitute k f (destination g k n) = (-1) ^ (n.val * k / g.ringDim) * f n := by
  rw [Negacyclic.substitute, Finset.sum_apply, Finset.sum_eq_single n]
  · rw [Negacyclic.monomial, if_pos (val_destination g k n)]
  · intro i _ hi
    refine if_neg fun h => hi (destination_injective g hk (Fin.ext ?_))
    rw [val_destination, ← h]
  · intro h
    exact absurd (Finset.mem_univ n) h

/-- **The substitution in a tile** of an odd power is that of the polynomial which the tile stands
for, and is reduced. What was written over does not matter. -/
theorem substitute_spec (hk : Odd k) (ha : a.Reduced c) (output : Tile g.side) :
    (substitute c k a output).Reduced c ∧
      (substitute c k a output).residues c = Negacyclic.substitute k (a.residues c) := by
  have hsigned := fun n : Fin g.ringDim => signed_spec g k n.val (ha n)
  constructor
  · exact forall_word_substitute hk output (P := fun _ x => x < c.modulus) fun n => (hsigned n).1
  · refine funext (forall_word_substitute hk output
      (P := fun m x => c.residue x = Negacyclic.substitute k (a.residues c) m) fun n => ?_)
    exact (hsigned n).2.trans (substitute_destination hk (a.residues c) n).symm

/-- What is written does not depend on what was written over. -/
theorem substitute_output_eq (hk : Odd k) (c : Channel) (a output output' : Tile g.side) :
    substitute c k a output = substitute c k a output' := by
  refine congrArg Tile.mk (Vector.ext fun m hm => ?_)
  exact forall_word_substitute hk output
    (P := fun m x => x = (substitute c k a output').words.get m)
    (fun n => (words_substitute hk c a output' n).symm) ⟨m, hm⟩

/-- Two substitutions make one. -/
theorem substitute_substitute {d : ℕ} (hd : Odd d) (hk : Odd k) (ha : a.Reduced c)
    (x y output : Tile g.side) :
    substitute c k (substitute c d a x) y = substitute c (d * k) a output := by
  obtain ⟨honce, hresidues⟩ := substitute_spec hd ha x
  obtain ⟨htwice, hresidues'⟩ := substitute_spec hk honce y
  obtain ⟨hproduct, hresidues''⟩ := substitute_spec (hd.mul hk) ha output
  refine Tile.eq_of_residues htwice hproduct ?_
  rw [hresidues', hresidues, hresidues'']
  exact Negacyclic.substitute_substitute g.ringDim_pos hk d _

/-- Exponents count modulo the order. -/
theorem substitute_mod (c : Channel) (k : ℕ) (a output : Tile g.side) :
    substitute c (k % g.order) a output = substitute c k a output := by
  have hexponent : ∀ n, exponent g (k % g.order) n = exponent g k n := fun n =>
    Nat.mul_mod_mod n k g.order
  have hdestination : destination g (k % g.order) = destination g k := funext fun n =>
    Fin.ext (congrArg (· % g.ringDim) (hexponent n.val))
  simp only [substitute, hdestination, signed, hexponent]

/-- Substituting the variable itself changes nothing. -/
theorem substitute_one (c : Channel) (a output : Tile g.side) : substitute c 1 a output = a := by
  refine congrArg Tile.mk (Vector.ext fun m hm => ?_)
  refine forall_word_substitute (g := g) (c := c) odd_one output
    (P := fun m x => x = a.words.get m) (fun n => ?_) ⟨m, hm⟩
  have hlt : n.val * 1 < g.ringDim := by rw [Nat.mul_one]; exact n.isLt
  have hplace : destination g 1 n = n := by
    refine Fin.ext ?_
    rw [val_destination, Nat.mod_eq_of_lt hlt, Nat.mul_one]
  have hsign : ¬ g.ringDim ≤ exponent g 1 n := by
    rw [ringDim_le_exponent_iff, Nat.div_eq_of_lt hlt]
    decide
  rw [hplace, signed, if_neg hsign]

/-- Exponents whose product is one modulo the order undo each other. -/
theorem substitute_cancel {d : ℕ} (hd : Odd d) (hk : Odd k) (hone : d * k % g.order = 1)
    (ha : a.Reduced c) (x y : Tile g.side) : substitute c k (substitute c d a x) y = a := by
  rw [substitute_substitute hd hk ha x y a, ← substitute_mod, hone, substitute_one]

/-- An odd exponent has one that undoes it. -/
theorem exists_mul_mod_order (g : Geometry) (hk : Odd k) : ∃ d, Odd d ∧ k * d % g.order = 1 := by
  have hcoprime : k.Coprime g.order := by
    rw [g.order_eq]
    exact Nat.Coprime.pow_right _ (Nat.coprime_two_right.2 hk)
  obtain ⟨d, -, hone⟩ := Nat.exists_mul_mod_eq_one_of_coprime hcoprime g.one_lt_order
  exact ⟨d, odd_of_mul_mod_order hone, hone⟩

/-! ### Automorphisms -/

/-- An automorphism has been given a table of its geometry, a step of it with the exponent `k`, and
the index of the channel `c`. -/
structure Selects (g : Geometry) (steps : GaloisSteps) (step : ℕ) (channels : Array Channel)
    (index k : ℕ) (c : Channel) : Prop where
  order_eq : steps.order = g.order
  element : steps.elements[step]? = some k
  channel : channels[index]? = some c

/-- An automorphism is the substitution that its step selects. -/
theorem automorphism_eq_ok {steps : GaloisSteps} {step index : ℕ} {channels : Array Channel}
    (h : Selects g steps step channels index k c) (a output : Tile g.side) :
    automorphism a steps step output channels index = .ok (substitute c k a output) := by
  simp only [automorphism, GaloisSteps.element, h.order_eq, h.element, h.channel, ne_eq,
    not_true_eq_false, if_false]
  rfl

end Galois

end RnsEngine
