import RnsEngine.Basis
import RnsEngine.Proofs.Prime.Root
import RnsEngine.Proofs.Refusal
import RnsEngine.Proofs.Ring.Operations
import RnsEngine.Proofs.Transform.Evaluation

/-!
# The two directions undo each other

What the tables of a channel are made of is a root, its inverse and the inverse of the ring
dimension: `Roots`. On coefficients a direction of the transform is `Roots.apply`, and either
direction undoes the other, modulo any number (`Roots.apply_opposite_apply`). What is done to values
between the directions is done to polynomials (`Roots.apply_eval_apply`).

`TabledChannel.Transforms` ties the tables of a channel to such numbers; a channel whose tables
are derived has them (`TabledChannel.ofChannel_transforms`). A tile is then transformed as its
residues are (`TabledChannel.Transforms.tile_spec`).
-/

namespace RnsEngine

namespace Direction

/-- The other direction. -/
def opposite : Direction → Direction
  | forward => inverse
  | inverse => forward

/-- The other direction of the other direction is the direction itself. -/
@[simp] theorem opposite_opposite (d : Direction) : d.opposite.opposite = d := by
  cases d <;> rfl

end Direction

/-! ### Roots and coefficients -/

/-- A root of a geometry modulo a number, with the inverses that the way back needs. -/
structure Roots (g : Geometry) (q : ℕ) where
  root : ZMod q
  inverse : ZMod q
  scale : ZMod q
  root_pow : root ^ g.ringDim = -1
  inverse_mul : inverse * root = 1
  scale_mul : scale * (g.ringDim : ZMod q) = 1

namespace Roots

variable {g : Geometry} {q : ℕ} (r : Roots g q)

/-- The root that the table of a direction holds the powers of. -/
def base : Direction → ZMod q
  | .forward => r.root
  | .inverse => r.inverse

/-- What the twist of a direction is scaled by. -/
def factor : Direction → ZMod q
  | .forward => 1
  | .inverse => r.scale

/-- Either root is one of the same order. -/
theorem base_pow (d : Direction) : r.base d ^ g.ringDim = -1 := by
  cases d with
  | forward => exact r.root_pow
  | inverse => exact Negacyclic.inverse_pow r.root_pow r.inverse_mul

/-- What a direction of the transform does to coefficients, or to values. -/
def apply : Direction → (Fin (g.side * g.side) → ZMod q) → Fin (g.side * g.side) → ZMod q
  | .forward, a => Negacyclic.values r.root a
  | .inverse, a => fun k => r.scale * Negacyclic.coefficients r.inverse a k

/-- The square of the side is a power of two. -/
theorem sq_side_eq (g : Geometry) : g.side * g.side = 2 ^ g.logRingDim := g.ringDim_eq

/-- **Either direction undoes the other.** -/
theorem apply_opposite_apply (d : Direction) (a : Fin (g.side * g.side) → ZMod q) :
    r.apply d.opposite (r.apply d a) = a := by
  have hcancel : ∀ x : ZMod q, r.scale * (((g.side * g.side : ℕ) : ZMod q) * x) = x := by
    intro x
    rw [← mul_assoc]
    exact (congrArg (· * x) r.scale_mul).trans (one_mul x)
  funext k
  cases d with
  | forward =>
    have h := Negacyclic.coefficients_values (sq_side_eq g) r.root_pow r.inverse_mul a k
    simp only [Direction.opposite, apply, h, hcancel]
  | inverse =>
    have h := Negacyclic.values_coefficients (sq_side_eq g) r.root_pow r.inverse_mul a k
    simp only [Direction.opposite, apply, Negacyclic.values_mul_left, h, hcancel]

/-- **Operations on values are operations on polynomials**, forwards and back. -/
theorem apply_eval_apply (op : PointwiseOp) (a b : Fin (g.side * g.side) → ZMod q) :
    r.apply .inverse (fun k => op.eval (r.apply .forward a k) (r.apply .forward b k)) =
      op.onPolynomials a b := by
  have h := PointwiseOp.values_onPolynomials g.ringDim_pos r.root_pow op a b
  exact (congrArg (r.apply .inverse) h.symm).trans (r.apply_opposite_apply .forward _)

end Roots

/-! ### Channels with derived tables -/

namespace TabledChannel

variable {g : Geometry}

/-- The modulus is a prime above the order, and the tables hold the powers of a root and of its
inverse. -/
structure Transforms (e : TabledChannel g) (r : Roots g e.channel.modulus.toNat) : Prop where
  prime : e.channel.modulus.toNat.Prime
  order_lt : g.order < e.channel.modulus.toNat
  powers : ∀ d, (e.table d).Powers (e.table_fits d).covers e.channel (r.base d) (r.factor d)

/-- A table that fits is derived where it is derived at all. -/
theorem derive_eq_ok {c : Channel} {psi : UInt64} {d : Direction}
    {t : { t : Table // t.Fits g d }} (h : derive g c psi d = .ok t) :
    Table.ofRoot g c psi d = .ok t.val := by
  unfold derive at h
  split at h
  · next hroot =>
    cases h
    exact hroot
  · cases h

/-- A table that is derived at all is derived with the fact that it fits. -/
theorem exists_derive {c : Channel} {psi : UInt64} {d : Direction}
    (h : ∃ t, Table.ofRoot g c psi d = .ok t) : ∃ t, derive g c psi d = .ok t := by
  obtain ⟨t, h⟩ := h
  unfold derive
  split
  · exact ⟨_, rfl⟩
  · next herror => cases herror.symm.trans h

/-- A root that is found has both tables. -/
theorem exists_ofRoot_of_found {c : Channel} {psi : UInt64}
    (h : c.primitiveRoot (UInt64.ofNat g.ringDim) = .ok psi) :
    ∀ d, ∃ t, Table.ofRoot g c psi d = .ok t := by
  obtain ⟨hprime, hlt, hpsi⟩ := Channel.primitiveRoot_spec h
  intro d
  cases d with
  | forward => exact Table.exists_ofRoot_forward hpsi
  | inverse =>
    obtain ⟨t, -, -, ht, -⟩ :=
      Table.exists_ofRoot_inverse hprime hpsi (Channel.ringDim_ne_zero hlt)
    exact ⟨t, ht⟩

/-- A channel is refused its tables for what it is refused a root for. -/
theorem ofChannel_eq_error_iff {c : Channel} {e : Fault} :
    ofChannel g c = .error e ↔ c.primitiveRoot (UInt64.ofNat g.ringDim) = .error e := by
  unfold ofChannel
  cases hfound : c.primitiveRoot (UInt64.ofNat g.ringDim) with
  | error e' => rw [error_bind, Except.error.injEq, Except.error.injEq]
  | ok psi =>
    obtain ⟨forward, hforward⟩ := exists_derive (exists_ofRoot_of_found hfound .forward)
    obtain ⟨inverse, hinverse⟩ := exists_derive (exists_ofRoot_of_found hfound .inverse)
    rw [ok_bind, hforward, ok_bind, hinverse, ok_bind]
    exact ⟨nofun, nofun⟩

/-- Derived tables hold the powers of the root that was found for the channel. -/
theorem ofChannel_transforms {c : Channel} {e : TabledChannel g} (h : ofChannel g c = .ok e) :
    e.channel = c ∧ ∃ r, e.Transforms r := by
  obtain ⟨psi, hfound, h⟩ := bind_eq_ok_iff.1 h
  obtain ⟨forward, hforward, h⟩ := bind_eq_ok_iff.1 h
  obtain ⟨inverse, hinverse, h⟩ := bind_eq_ok_iff.1 h
  obtain rfl := Except.ok.inj h
  refine ⟨rfl, ?_⟩
  obtain ⟨hprime, hlt, hpsi⟩ := Channel.primitiveRoot_spec hfound
  obtain ⟨-, -, hpowers⟩ := Table.ofRoot_forward_eq_ok (derive_eq_ok hforward)
  obtain ⟨t, phi, scale, ht, hmul, hscale, -, hinverses⟩ :=
    Table.exists_ofRoot_inverse hprime hpsi (Channel.ringDim_ne_zero hlt)
  rw [derive_eq_ok hinverse] at ht
  obtain rfl := Except.ok.inj ht
  exact ⟨⟨c.residue psi, phi, scale, hpsi, hmul, hscale⟩, hprime, hlt, fun d =>
    match d with
    | .forward => hpowers _
    | .inverse => hinverses _⟩

/-- A tile is transformed as its residues are, whatever the buffers of the datapath held, and
stays reduced. -/
theorem Transforms.tile_spec {e : TabledChannel g} {r : Roots g e.channel.modulus.toNat}
    (he : e.Transforms r) (direction : Direction) (h : (e.table direction).Covers g)
    {d : Datapath g} (hd : d.tile.Reduced e.channel) :
    let done := (d.transform e.channel (e.table direction) h).tile
    done.Reduced e.channel ∧
      done.residues e.channel = r.apply direction (d.tile.residues e.channel) := by
  have hdirection : (e.table direction).direction = direction := (e.table_fits direction).1
  have hpowers := he.powers direction
  have hbase := r.base_pow direction
  simp only [Datapath.transform, hdirection]
  cases direction with
  | forward =>
    obtain ⟨hreduced, hresidues⟩ := Datapath.evaluate_spec hpowers hbase hd
    refine ⟨hreduced, hresidues.trans ?_⟩
    simp [Roots.apply, Roots.base, Roots.factor]
  | inverse => exact Datapath.interpolate_spec hpowers hbase hd

end TabledChannel

end RnsEngine
