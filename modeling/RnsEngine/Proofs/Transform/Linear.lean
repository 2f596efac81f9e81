import RnsEngine.Proofs.Transform.Guarded
import RnsEngine.Proofs.Transform.Reduced

/-!
# The transform is linear

Whatever the factors of a table are, the transform applies sums, differences and products with
factors, all of which respect combinations of words. So do the passes over a tile: when one tile is
a combination of two others, entry by entry, its transform is the same combination of theirs.

The three runs are compared step by step. `Channel.Combines` relates a word of each, a butterfly
keeps the relation (`Channel.Combines.butterfly`), hence every stage in place and the whole lane
(`Lanes.combines_spectrum`), and the equations of the passes take it to the tile. Nothing is used of
a table but that its factors are reduced, which is what the check of given words finds out; this
includes that the datapath stays within its buffers and its table (`Datapath.transform_linear`).
-/

namespace RnsEngine

/-! ### Combinations of words -/

namespace Channel

variable {c : Channel} {α β : ZMod c.modulus.toNat}

/-- A word of each of three runs: all are reduced, and the third is a combination of the others. -/
structure Combines (c : Channel) (α β : ZMod c.modulus.toNat) (x y z : UInt64) : Prop where
  fst_lt : x < c.modulus
  snd_lt : y < c.modulus
  lt : z < c.modulus
  residue_eq : c.residue z = α * c.residue x + β * c.residue y

/-- A product with a reduced factor keeps combinations. -/
theorem Combines.mul {x y z w : UInt64} (h : c.Combines α β x y z) (hw : w < c.modulus) :
    c.Combines α β (c.mul x w) (c.mul y w) (c.mul z w) where
  fst_lt := c.mul_lt h.fst_lt hw
  snd_lt := c.mul_lt h.snd_lt hw
  lt := c.mul_lt h.lt hw
  residue_eq := by
    rw [c.residue_mul h.fst_lt hw, c.residue_mul h.snd_lt hw, c.residue_mul h.lt hw, h.residue_eq]
    ring

/-- A butterfly with a reduced factor keeps combinations, in either result. -/
theorem Combines.butterfly {x y z x' y' z' w : UInt64} (h : c.Combines α β x y z)
    (h' : c.Combines α β x' y' z') (hw : w < c.modulus) :
    c.Combines α β (c.butterfly x x' w).1 (c.butterfly y y' w).1 (c.butterfly z z' w).1 ∧
      c.Combines α β (c.butterfly x x' w).2 (c.butterfly y y' w).2 (c.butterfly z z' w).2 := by
  obtain ⟨hx₁, hx₂, hx₁', hx₂'⟩ := c.butterfly_spec h.fst_lt h'.fst_lt hw
  obtain ⟨hy₁, hy₂, hy₁', hy₂'⟩ := c.butterfly_spec h.snd_lt h'.snd_lt hw
  obtain ⟨hz₁, hz₂, hz₁', hz₂'⟩ := c.butterfly_spec h.lt h'.lt hw
  refine ⟨⟨hx₁, hy₁, hz₁, ?_⟩, ⟨hx₂, hy₂, hz₂, ?_⟩⟩
  · rw [hx₁', hy₁', hz₁', h.residue_eq, h'.residue_eq]
    ring
  · rw [hx₂', hy₂', hz₂', h.residue_eq, h'.residue_eq]
    ring

end Channel

/-! ### Lanes -/

namespace Lanes

variable {g : Geometry} {c : Channel} {t : Table} {h : t.Covers g} {α β : ZMod c.modulus.toNat}

/-- A vector of each of three runs, with a combination in every place. -/
def Combine (c : Channel) (α β : ZMod c.modulus.toNat) {n : ℕ} (x y z : Vector UInt64 n) : Prop :=
  ∀ k (hk : k < n), c.Combines α β x[k] y[k] z[k]

/-- A combination that is written to the same place of the three vectors leaves one in every place.
-/
theorem Combine.set {n : ℕ} {x y z : Vector UInt64 n} (hv : Combine c α β x y z) {k : ℕ}
    (hk : k < n) {a b e : UInt64} (h : c.Combines α β a b e) :
    Combine c α β (x.set k a hk) (y.set k b hk) (z.set k e hk) := by
  intro i hi
  rcases eq_or_ne k i with rfl | hne
  · simpa only [Vector.getElem_set_self] using h
  · simpa only [Vector.getElem_set_ne hk hi hne] using hv i hi

/-- A butterfly in place keeps combinations. -/
theorem Combine.combine (ht : t.All (· < c.modulus) h) (s : Fin g.logSide) (b : Fin g.half)
    {x y z : Vector UInt64 g.side} (hv : Combine c α β x y z) :
    Combine c α β (combine c t h s x b) (combine c t h s y b) (combine c t h s z b) := by
  obtain ⟨hlow, hhigh⟩ := (hv _ (Butterfly.first_lt s b)).butterfly
    (hv _ (Butterfly.second_lt s b)) (ht (.stage s b))
  exact (hv.set (Butterfly.first_lt s b) hlow).set (Butterfly.second_lt s b) hhigh

/-- So does a stage. -/
theorem Combine.stage (ht : t.All (· < c.modulus) h) (s : Fin g.logSide)
    {x y z : Vector UInt64 g.side} (hv : Combine c α β x y z) :
    Combine c α β (stage c t h x s) (stage c t h y s) (stage c t h z s) :=
  foldl_relates (Combine c α β) (Lanes.combine c t h s) hv fun b _ _ _ hv => hv.combine ht s b

/-- **One lane.** The transform of a lane keeps combinations. -/
theorem combines_spectrum (ht : t.All (· < c.modulus) h) {x y z : Fin g.side → UInt64}
    (hv : ∀ n, c.Combines α β (x n) (y n) (z n)) (k : Fin g.side) :
    c.Combines α β ((spectrum c t h (Vector.ofFn x)).get k) ((spectrum c t h (Vector.ofFn y)).get k)
      ((spectrum c t h (Vector.ofFn z)).get k) := by
  have hstart : Combine c α β (Vector.ofFn fun i => (Vector.ofFn x).get (bitReversed g i))
      (Vector.ofFn fun i => (Vector.ofFn y).get (bitReversed g i))
      (Vector.ofFn fun i => (Vector.ofFn z).get (bitReversed g i)) := by
    have hget : ∀ (f : Fin g.side → UInt64) n, (Vector.ofFn f).get n = f n := fun f n =>
      Vector.getElem_ofFn n.isLt
    intro i hi
    simpa only [Vector.getElem_ofFn, hget] using hv (bitReversed g ⟨i, hi⟩)
  exact foldl_relates (Combine c α β) (Lanes.stage c t h) hstart
    (fun s _ _ _ hv => hv.stage ht s) k.val k.isLt

end Lanes

/-! ### Tiles -/

namespace Datapath

open Lanes

variable {g : Geometry} {c : Channel} {t : Table} {h : t.Covers g} {α β : ZMod c.modulus.toNat}
  {x y z : Datapath g}

/-- The forward transform keeps combinations. -/
theorem combines_evaluate (ht : t.All (· < c.modulus) h)
    (hd : ∀ i j, c.Combines α β (x.tile.get i j) (y.tile.get i j) (z.tile.get i j))
    (i j : Fin g.side) :
    c.Combines α β ((x.evaluate c t h).tile.get i j) ((y.evaluate c t h).tile.get i j)
      ((z.evaluate c t h).tile.get i j) := by
  simp only [get_evaluate]
  refine combines_spectrum ht (fun n₂ => ?_) i
  refine Channel.Combines.mul ?_ (ht (.pass j n₂))
  exact combines_spectrum ht (fun n₁ => (hd n₁ n₂).mul (ht (.twist n₁))) j

/-- The inverse transform keeps combinations. -/
theorem combines_interpolate (ht : t.All (· < c.modulus) h)
    (hd : ∀ i j, c.Combines α β (x.tile.get i j) (y.tile.get i j) (z.tile.get i j))
    (i j : Fin g.side) :
    c.Combines α β ((x.interpolate c t h).tile.get i j) ((y.interpolate c t h).tile.get i j)
      ((z.interpolate c t h).tile.get i j) := by
  simp only [get_interpolate]
  refine Channel.Combines.mul ?_ (ht (.twist i))
  refine combines_spectrum ht (fun k₁ => ?_) i
  refine Channel.Combines.mul ?_ (ht (.pass k₁ j))
  exact combines_spectrum ht (fun k₂ => hd k₂ k₁) j

/-- The transform in the direction of the table keeps combinations. -/
theorem combines_transform (ht : t.All (· < c.modulus) h)
    (hd : ∀ i j, c.Combines α β (x.tile.get i j) (y.tile.get i j) (z.tile.get i j))
    (i j : Fin g.side) :
    c.Combines α β ((x.transform c t h).tile.get i j) ((y.transform c t h).tile.get i j)
      ((z.transform c t h).tile.get i j) := by
  simp only [transform]
  cases t.direction with
  | forward => exact combines_evaluate ht hd i j
  | inverse => exact combines_interpolate ht hd i j

end Datapath

/-! ### Sums and multiples of tiles -/

/-- Entry by entry, a tile is the sum of two others modulo a number. -/
def Tile.IsSum (q : ℕ) {side : ℕ} (s a b : Tile side) : Prop :=
  ∀ i j, (s.get i j).toNat = ((a.get i j).toNat + (b.get i j).toNat) % q

/-- Entry by entry, a tile is a multiple of another one modulo a number. -/
def Tile.IsMultiple (q k : ℕ) {side : ℕ} (s a : Tile side) : Prop :=
  ∀ i j, (s.get i j).toNat = k * (a.get i j).toNat % q

namespace Channel

variable {c : Channel} {α β : ZMod c.modulus.toNat} {x y z : UInt64}

/-- A word is a combination of two reduced ones when it is the remainder of a number with the
residue of the combination. -/
theorem combines_iff {n : ℕ} (hx : x < c.modulus) (hy : y < c.modulus)
    (hn : (n : ZMod c.modulus.toNat) = α * c.residue x + β * c.residue y) :
    c.Combines α β x y z ↔ z.toNat = n % c.modulus.toNat := by
  constructor
  · intro h
    have hresidue : c.residue z = n := h.residue_eq.trans hn.symm
    rw [residue, ZMod.natCast_eq_natCast_iff'] at hresidue
    rwa [Nat.mod_eq_of_lt (UInt64.lt_iff_toNat_lt.1 h.lt)] at hresidue
  · intro h
    have hz : z < c.modulus := UInt64.lt_iff_toNat_lt.2 (h ▸ Nat.mod_lt _ c.modulus_pos)
    exact ⟨hx, hy, hz, (c.residue_of_toNat_eq_mod h).trans hn⟩

/-- The sum of two reduced words is their combination with coefficients one. -/
theorem combines_one_one_iff (hx : x < c.modulus) (hy : y < c.modulus) :
    c.Combines 1 1 x y z ↔ z.toNat = (x.toNat + y.toNat) % c.modulus.toNat :=
  combines_iff hx hy (by rw [one_mul, one_mul, Nat.cast_add, residue, residue])

/-- A multiple of a reduced word is its combination with itself that leaves the second one out. -/
theorem combines_zero_iff {k : ℕ} (hx : x < c.modulus) :
    c.Combines k 0 x x z ↔ z.toNat = k * x.toNat % c.modulus.toNat :=
  combines_iff hx hx (by rw [zero_mul, add_zero, Nat.cast_mul, residue])

end Channel

namespace Datapath

variable {g : Geometry} {c : Channel} {t : Table}

/-- **Linearity.** A table of given words that passes its check, whatever the words are, has all
factors of the layout. With it a reduced tile is transformed, from any buffers, without an index
that is out of range and with reduced words throughout, and the transform of a sum or of a multiple
of reduced tiles is the sum or the multiple of their transforms. -/
theorem transform_linear {words : Array UInt64} {direction : Direction}
    (ht : Table.ofWords g c words direction = .ok t) :
    ∃ h : t.Covers g,
      (∀ d : Datapath g, d.tile.Reduced c →
        d.transformGuarded c t = some (d.transform c t h) ∧ (d.transform c t h).tile.Reduced c) ∧
      (∀ a b s : Datapath g, a.tile.Reduced c → b.tile.Reduced c →
        s.tile.IsSum c.modulus.toNat a.tile b.tile →
        (s.transform c t h).tile.IsSum c.modulus.toNat (a.transform c t h).tile
          (b.transform c t h).tile) ∧
      ∀ (k : ℕ) (a s : Datapath g), a.tile.Reduced c →
        s.tile.IsMultiple c.modulus.toNat k a.tile →
        (s.transform c t h).tile.IsMultiple c.modulus.toNat k (a.transform c t h).tile := by
  obtain ⟨hsize, hwords, htable⟩ := Table.ofWords_eq_ok_iff.1 ht
  have h : t.Covers g := Table.Fits.covers ⟨rfl, hwords ▸ hsize⟩
  have hall := htable.all h
  have hreduced : ∀ d : Datapath g, d.tile.Reduced c → (d.transform c t h).tile.Reduced c :=
    fun d hd k => (transformOn_eq (ArithmeticUnit.computes_asserting c) hall hd.all).2 _
      (Vector.getElem_mem k.isLt)
  refine ⟨h, fun d hd => ⟨transformGuarded_eq hall hd.all, hreduced d hd⟩,
    fun a b s ha hb hs i j => ?_, fun k a s ha hs i j => ?_⟩
  · rw [← Channel.combines_one_one_iff ((hreduced a ha).get_lt i j) ((hreduced b hb).get_lt i j)]
    exact combines_transform hall (fun i j =>
      (Channel.combines_one_one_iff (ha.get_lt i j) (hb.get_lt i j)).2 (hs i j)) i j
  · rw [← Channel.combines_zero_iff ((hreduced a ha).get_lt i j)]
    exact combines_transform hall (fun i j =>
      (Channel.combines_zero_iff (ha.get_lt i j)).2 (hs i j)) i j

/-- A table that holds five throughout belongs to no root. With it, modulo 97, the sum of the tile
of ones and a tile of different words is transformed into the sum of their transforms, and ten
times that tile into ten times its transform. -/
theorem transform_linear_constant :
    ∃ (c : Channel) (t : Table) (h : t.Covers Basis.smallGeometry), c.modulus = 97 ∧
      Table.ofWords Basis.smallGeometry c (Array.replicate 32 5) .inverse = .ok t ∧
      let run (f : Fin 4 → Fin 4 → ℕ) := (Datapath.transform c t h
        { Scratch.blank Basis.smallGeometry with tile := .ofFn fun i j => .ofNat (f i j) }).tile
      (run fun i j => 30 * i + j + 1).IsSum 97 (run fun _ _ => 1) (run fun i j => 30 * i + j) ∧
        (run fun i j => 10 * (30 * i + j) % 97).IsMultiple 97 10 (run fun i j => 30 * i + j) := by
  let c : Channel := ⟨97, Barrett.ofModulus 97, by decide, by decide, rfl⟩
  let start (f : Fin 4 → Fin 4 → ℕ) : Datapath Basis.smallGeometry :=
    { Scratch.blank Basis.smallGeometry with tile := .ofFn fun i j => .ofNat (f i j) }
  have ht : Table.ofWords Basis.smallGeometry c (Array.replicate 32 5) .inverse =
      .ok (Table.constant Basis.smallGeometry .inverse 5) := Table.ofWords_constant (by decide)
  have hones : (start fun _ _ => 1).tile.Reduced c := by
    unfold Tile.Reduced
    decide +kernel
  have hwords : (start fun i j => 30 * i + j).tile.Reduced c := by
    unfold Tile.Reduced
    decide +kernel
  obtain ⟨h, -, hsum, hmultiple⟩ := transform_linear ht
  refine ⟨c, _, h, rfl, ht, hsum _ _ (start fun i j => 30 * i + j + 1) hones hwords ?_,
    hmultiple 10 _ (start fun i j => 10 * (30 * i + j) % 97) hwords ?_⟩
  · unfold Tile.IsSum
    decide +kernel
  · unfold Tile.IsMultiple
    decide +kernel

end Datapath

end RnsEngine
