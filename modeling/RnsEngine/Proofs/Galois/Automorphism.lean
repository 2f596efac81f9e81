import RnsEngine.Proofs.Basis
import RnsEngine.Proofs.Galois.Substitution

/-!
# Automorphisms in place

An automorphism is applied over an output tile: the table, the step and the channel are checked, and
then the coefficients of the input are sent one after the other to their places.
`Galois.crossbar` is this program on the output, where what has been written before a fault would
stay written. It leaves in the output what `Galois.automorphism` returns, or the output itself
(`Galois.crossbar_eq`).

`Galois.automorphism_eq_remainder` says what is written for an odd exponent `k`: every place once,
and there the coefficients of the remainder of `a(X ^ k)` by `X ^ ringDim + 1`. From this it follows
that the automorphism permutes the reduced tiles and respects their sums, differences and products.
-/

namespace RnsEngine

/-- A program on an output tile; what it has written before a fault stays written. -/
abbrev TilePass (side : ℕ) := ExceptT Fault (StateM (Tile side))

namespace Galois

open Polynomial

variable {g : Geometry} {c : Channel} {k : ℕ}

/-! ### The crossbar -/

/-- A check that leaves the output alone. -/
def settle {α : Type} (r : Except Fault α) : TilePass g.side α := fun output => (r, output)

/-- Sends one coefficient of the input to its place in the output. -/
def send (c : Channel) (k : ℕ) (input : Tile g.side) (n : Fin g.ringDim) : TilePass g.side Unit :=
  modify fun output =>
    ⟨output.words.set (destination g k n).val (signed g c k n.val (input.words.get n))
      (destination g k n).isLt⟩

/-- The automorphism of a step, in the channel with the given index. -/
def crossbar (input : Tile g.side) (steps : GaloisSteps) (step : ℕ) (channels : Array Channel)
    (index : ℕ) : TilePass g.side Unit := do
  if steps.order ≠ g.order then
    throw (.lengthMismatch .galoisOrder g.order steps.order)
  let k ← settle (steps.element step)
  match channels[index]? with
  | some c => (List.finRange g.ringDim).forM (send c k input)
  | none => throw (.windowOutOfRange index (min (index + 1) (2 ^ 64 - 1)) channels.size)

/-- Sending coefficients one after the other is a fold of single writes. -/
theorem forM_send (c : Channel) (k : ℕ) (input output : Tile g.side) (l : List (Fin g.ringDim)) :
    l.forM (send c k input) output =
      (.ok (), ⟨l.foldl (fun words n => words.set (destination g k n).val
        (signed g c k n.val (input.words.get n)) (destination g k n).isLt) output.words⟩) := by
  induction l generalizing output with
  | nil => rfl
  | cons n l ih => exact ih _

/-- The crossbar writes the tile that the automorphism returns, or leaves the output as it was. -/
theorem crossbar_eq (input output : Tile g.side) (steps : GaloisSteps) (step : ℕ)
    (channels : Array Channel) (index : ℕ) :
    crossbar input steps step channels index output =
      match automorphism input steps step output channels index with
      | .ok written => (.ok (), written)
      | .error fault => (.error fault, output) := by
  unfold crossbar automorphism
  by_cases horder : steps.order = g.order
  · simp only [ne_eq, horder, not_true_eq_false, if_false]
    cases steps.element step with
    | error fault => rfl
    | ok k =>
      cases channels[index]? with
      | none => rfl
      | some c =>
        refine (forM_send c k input output (List.finRange g.ringDim)).trans ?_
        rw [← Fin.foldl_eq_finRange_foldl]
        rfl
  · simp only [ne_eq, horder, not_false_eq_true, if_true]
    rfl

/-! ### Refusals -/

section Refusals

variable (input output : Tile g.side) {steps : GaloisSteps} {step : ℕ} (channels : Array Channel)
  (index : ℕ)

/-- A table of another order is refused. -/
theorem automorphism_of_order_ne (h : steps.order ≠ g.order) (step : ℕ) :
    automorphism input steps step output channels index =
      .error (.lengthMismatch .galoisOrder g.order steps.order) := by
  simp only [automorphism, ne_eq, h, not_false_eq_true, if_true]
  rfl

/-- A step past the end of the table is refused. -/
theorem automorphism_of_size_le (horder : steps.order = g.order) (h : steps.size ≤ step) :
    automorphism input steps step output channels index =
      .error (.stepOutOfRange step steps.size) := by
  have hnone : steps.elements[step]? = none := Array.getElem?_eq_none h
  simp only [automorphism, GaloisSteps.element, horder, hnone, ne_eq, not_true_eq_false, if_false]
  rfl

/-- An index without a channel is refused. -/
theorem automorphism_of_channels_size_le {channels : Array Channel} {index : ℕ}
    (horder : steps.order = g.order) (hstep : step < steps.size) (h : channels.size ≤ index) :
    automorphism input steps step output channels index =
      .error (.windowOutOfRange index (min (index + 1) (2 ^ 64 - 1)) channels.size) := by
  have hsome : steps.elements[step]? = some steps.elements[step] := Array.getElem?_eq_getElem hstep
  have hnone : channels[index]? = none := Array.getElem?_eq_none h
  simp only [automorphism, GaloisSteps.element, horder, hsome, hnone, ne_eq, not_true_eq_false,
    if_false]
  rfl

end Refusals

/-! ### What is written -/

/-- On reduced tiles, a function is the substitution of `X ^ k` for the variable modulo
`X ^ ringDim + 1`, in the arithmetic of a channel: it permutes these tiles and respects their sums,
differences and products, and a coefficient that is zero lands as zero. -/
structure Substitutes (c : Channel) (k : ℕ) (image : Tile g.side → Tile g.side) : Prop where
  reduced : ∀ a, a.Reduced c → (image a).Reduced c
  remainder : ∀ a, a.Reduced c →
    Negacyclic.toPolynomial ((image a).residues c) =
      (Negacyclic.toPolynomial (a.residues c)).comp (X ^ k) %ₘ (X ^ g.ringDim + 1)
  bijective : ∀ b, b.Reduced c → ∃! a, a.Reduced c ∧ image a = b
  add : ∀ a b, a.Reduced c → b.Reduced c →
    image (Tile.zipWith c.add a b) = Tile.zipWith c.add (image a) (image b)
  sub : ∀ a b, a.Reduced c → b.Reduced c →
    image (Tile.zipWith c.sub a b) = Tile.zipWith c.sub (image a) (image b)
  product : ∀ a b d, a.Reduced c → b.Reduced c → d.Reduced c →
    Negacyclic.toPolynomial (d.residues c) =
        Negacyclic.toPolynomial (a.residues c) * Negacyclic.toPolynomial (b.residues c) %ₘ
          (X ^ g.ringDim + 1) →
      Negacyclic.toPolynomial ((image d).residues c) =
        Negacyclic.toPolynomial ((image a).residues c) *
          Negacyclic.toPolynomial ((image b).residues c) %ₘ (X ^ g.ringDim + 1)
  zero : ∀ a n, a.words.get n = 0 → (image a).words.get (destination g k n) = 0

/-- Combining two reduced tiles by an operation that is one of coefficients, before the
substitution or after it, makes no difference. -/
theorem substitute_zipWith (hk : Odd k) (op : PointwiseOp)
    (hop : ∀ s t : Fin g.ringDim → ZMod c.modulus.toNat,
      (fun n => op.eval (s n) (t n)) = op.onPolynomials s t)
    {a b : Tile g.side} (ha : a.Reduced c) (hb : b.Reduced c) (x y z : Tile g.side) :
    substitute c k (Tile.zipWith (op.apply c) a b) x =
      Tile.zipWith (op.apply c) (substitute c k a y) (substitute c k b z) := by
  obtain ⟨hcombined, hresidues⟩ := Tile.zipWith_spec ha hb op
  obtain ⟨himage, hleft⟩ := substitute_spec hk hcombined x
  obtain ⟨ha', hleftImage⟩ := substitute_spec hk ha y
  obtain ⟨hb', hrightImage⟩ := substitute_spec hk hb z
  obtain ⟨himage', hright⟩ := Tile.zipWith_spec ha' hb' op
  refine Tile.eq_of_residues himage himage' ?_
  rw [hleft, hresidues, hright, hleftImage, hrightImage]
  exact (congrArg _ (hop _ _)).trans
    ((Negacyclic.substitute_onPolynomials g.ringDim_pos hk op _ _).trans (hop _ _).symm)

/-- A substitution in tiles is one in polynomials. -/
theorem substitutes_substitute (hk : Odd k) (c : Channel) (output : Tile g.side) :
    Substitutes c k fun a : Tile g.side => substitute c k a output := by
  have hremainder := fun (a : Tile g.side) (ha : a.Reduced c) => substitute_spec hk ha output
  refine ⟨fun a ha => (hremainder a ha).1, fun a ha => ?_, fun b hb => ?_, fun a b ha hb => ?_,
    fun a b ha hb => ?_, fun a b d ha hb hd h => ?_, fun a n h => ?_⟩
  · rw [(hremainder a ha).2]
    exact Negacyclic.toPolynomial_substitute g.ringDim_pos k _
  · obtain ⟨d, hd, hone⟩ := exists_mul_mod_order g hk
    have hback : d * k % g.order = 1 := Nat.mul_comm k d ▸ hone
    refine ⟨substitute c d b output, ⟨(substitute_spec hd hb output).1,
      substitute_cancel hd hk hback hb output output⟩, ?_⟩
    rintro a ⟨ha, rfl⟩
    exact (substitute_cancel hk hd hone ha output output).symm
  · exact substitute_zipWith hk .add (fun _ _ => rfl) ha hb output output output
  · exact substitute_zipWith hk .sub (fun _ _ => rfl) ha hb output output output
  · have hproduct : d.residues c = Negacyclic.product (a.residues c) (b.residues c) := by
      refine Negacyclic.toPolynomial_injective (h.trans ?_)
      exact (Negacyclic.toPolynomial_product g.ringDim_pos _ _).symm
    rw [(hremainder d hd).2, (hremainder a ha).2, (hremainder b hb).2, hproduct]
    exact (congrArg _ (Negacyclic.substitute_product g.ringDim_pos hk _ _)).trans
      (Negacyclic.toPolynomial_product g.ringDim_pos _ _)
  · rw [words_substitute hk, h, signed_zero]

/-- **The automorphism.** The program on the output tile writes what the automorphism returns, or
nothing.

For a table of the geometry, a step with an odd exponent `k` and a channel, each place of the output
is written once, whatever it held, and what is written is the substitution of `X ^ k` for the
variable modulo `X ^ ringDim + 1`. Nothing is asked of the modulus.

A table of another order, a step past its end, and an index without a channel are refused, in this
order, and the output is as it was. -/
theorem automorphism_eq_remainder (g : Geometry) (steps : GaloisSteps) (step : ℕ)
    (channels : Array Channel) (index : ℕ) :
    (∀ input output : Tile g.side, crossbar input steps step channels index output =
      match automorphism input steps step output channels index with
      | .ok written => (.ok (), written)
      | .error fault => (.error fault, output)) ∧
    (∀ k c, Selects g steps step channels index k c → Odd k →
      (∀ m, ∃! n, destination g k n = m) ∧
        ∃ image : Tile g.side → Tile g.side, Substitutes c k image ∧
          ∀ input output, crossbar input steps step channels index output = (.ok (), image input)) ∧
    ∀ input output : Tile g.side,
      (steps.order ≠ g.order → crossbar input steps step channels index output =
        (.error (.lengthMismatch .galoisOrder g.order steps.order), output)) ∧
      (steps.order = g.order → steps.size ≤ step →
        crossbar input steps step channels index output =
          (.error (.stepOutOfRange step steps.size), output)) ∧
      (steps.order = g.order → step < steps.size → channels.size ≤ index →
        crossbar input steps step channels index output =
          (.error (.windowOutOfRange index (min (index + 1) (2 ^ 64 - 1)) channels.size),
            output)) := by
  refine ⟨fun input output => crossbar_eq input output steps step channels index,
    fun k c hselects hk => ?_, fun input output => ⟨fun horder => ?_, fun horder hstep => ?_,
      fun horder hstep hindex => ?_⟩⟩
  · refine ⟨fun m => (destination_bijective g hk).existsUnique m,
      fun a => substitute c k a Tile.zero, substitutes_substitute hk c Tile.zero,
      fun input output => ?_⟩
    rw [crossbar_eq, automorphism_eq_ok hselects, substitute_output_eq hk c input output Tile.zero]
  · rw [crossbar_eq, automorphism_of_order_ne input output channels index horder]
  · rw [crossbar_eq, automorphism_of_size_le input output channels index horder hstep]
  · rw [crossbar_eq, automorphism_of_channels_size_le input output horder hstep hindex]

/-- Modulo `X ^ 16 + 1`, substituting `X ^ 31` takes the sum of all sixteen powers of the variable
to one minus the others, and a table of one step refuses the second. -/
theorem automorphism_eq_remainder_conjugation :
    ∃ (steps : GaloisSteps) (c : Channel)
      (image : Tile Basis.smallGeometry.side → Tile Basis.smallGeometry.side),
      Selects Basis.smallGeometry steps 0 #[c] 0 31 c ∧ Substitutes c 31 image ∧
        (image ⟨Vector.replicate _ 1⟩).words.toList = 1 :: List.replicate 15 96 ∧
        (∀ input output, crossbar input steps 0 #[c] 0 output = (.ok (), image input)) ∧
        ∀ input output : Tile Basis.smallGeometry.side,
          crossbar input steps 1 #[c] 0 output = (.error (.stepOutOfRange 1 1), output) := by
  let steps : GaloisSteps := { order := 32, elements := #[31] }
  let c : Channel := ⟨97, Barrett.ofModulus 97, by decide, by decide, rfl⟩
  have hselects : Selects Basis.smallGeometry steps 0 #[c] 0 31 c := ⟨by decide, rfl, rfl⟩
  obtain ⟨-, hvalid, -⟩ := automorphism_eq_remainder Basis.smallGeometry steps 0 #[c] 0
  obtain ⟨-, image, himage, hcrossbar⟩ := hvalid 31 c hselects (by decide)
  obtain ⟨-, -, hrefused⟩ := automorphism_eq_remainder Basis.smallGeometry steps 1 #[c] 0
  refine ⟨steps, c, image, hselects, himage, ?_, hcrossbar, fun input output =>
    (hrefused input output).2.1 hselects.order_eq (by decide)⟩
  have hwritten := congrArg (·.2.words.toList) (hcrossbar ⟨Vector.replicate _ 1⟩ Tile.zero)
  rw [← hwritten]
  decide +kernel

end Galois

end RnsEngine
