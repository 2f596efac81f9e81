import Mathlib.Data.ZMod.Basic
import RnsEngine.Channel.Exact
import RnsEngine.Tile.Basic

/-!
# Words as residues

A word stands for its residue modulo the modulus of a channel, and a tile for the coefficients
of a polynomial over that ring. On reduced words the operations of a channel are the ring
operations (`Channel.residue_add` and its companions), and a reduced tile is determined by its
residues (`Tile.eq_of_residues`).
-/

namespace RnsEngine

namespace Channel

variable (c : Channel) {a b : UInt64}

/-- The residue of a word. -/
def residue (x : UInt64) : ZMod c.modulus.toNat := x.toNat

/-- Words with residues of equal numbers have equal residues. -/
theorem residue_of_toNat_eq_mod {x : UInt64} {n : ℕ} (h : x.toNat = n % c.modulus.toNat) :
    c.residue x = n := by
  rw [residue, h, ZMod.natCast_mod]

/-- A channel adds residues. -/
theorem residue_add (ha : a < c.modulus) (hb : b < c.modulus) :
    c.residue (c.add a b) = c.residue a + c.residue b := by
  rw [c.residue_of_toNat_eq_mod (c.toNat_add ha hb), Nat.cast_add]
  rfl

/-- A channel subtracts residues. -/
theorem residue_sub (ha : a < c.modulus) (hb : b < c.modulus) :
    c.residue (c.sub a b) = c.residue a - c.residue b := by
  have hle : b.toNat ≤ c.modulus.toNat := Nat.le_of_lt (UInt64.lt_iff_toNat_lt.1 hb)
  rw [c.residue_of_toNat_eq_mod (c.toNat_sub ha hb), Nat.cast_add, Nat.cast_sub hle,
    ZMod.natCast_self, zero_sub, ← sub_eq_add_neg]
  rfl

/-- A channel negates residues. -/
theorem residue_neg (ha : a < c.modulus) : c.residue (c.neg a) = -c.residue a := by
  have hle : a.toNat ≤ c.modulus.toNat := Nat.le_of_lt (UInt64.lt_iff_toNat_lt.1 ha)
  rw [c.residue_of_toNat_eq_mod (c.toNat_neg ha), Nat.cast_sub hle, ZMod.natCast_self, zero_sub]
  rfl

/-- A channel multiplies residues. -/
theorem residue_mul (ha : a < c.modulus) (hb : b < c.modulus) :
    c.residue (c.mul a b) = c.residue a * c.residue b := by
  rw [c.residue_of_toNat_eq_mod (c.toNat_mul ha hb), Nat.cast_mul]
  rfl

/-- Reduced words with the same residue are equal. -/
theorem eq_of_residue (ha : a < c.modulus) (hb : b < c.modulus)
    (h : c.residue a = c.residue b) : a = b := by
  refine UInt64.toNat_inj.1 ?_
  rw [residue, residue, ZMod.natCast_eq_natCast_iff] at h
  exact Nat.ModEq.eq_of_lt_of_lt h (UInt64.lt_iff_toNat_lt.1 ha) (UInt64.lt_iff_toNat_lt.1 hb)

end Channel

namespace Tile

variable {side : ℕ}

/-- Every word is below the modulus. -/
def Reduced (c : Channel) (t : Tile side) : Prop :=
  ∀ k : Fin (side * side), t.words.get k < c.modulus

/-- The coefficients that a tile stands for. -/
def residues (c : Channel) (t : Tile side) : Fin (side * side) → ZMod c.modulus.toNat :=
  fun k => c.residue (t.words.get k)

/-- A reduced tile is determined by its coefficients. -/
theorem eq_of_residues {c : Channel} {s t : Tile side} (hs : s.Reduced c) (ht : t.Reduced c)
    (h : s.residues c = t.residues c) : s = t := by
  cases s with
  | mk s =>
    cases t with
    | mk t =>
      refine congrArg mk (Vector.ext fun k hk => ?_)
      exact c.eq_of_residue (hs ⟨k, hk⟩) (ht ⟨k, hk⟩) (congrFun h ⟨k, hk⟩)

/-- A tile is reduced when no word is found that is not. -/
theorem reduced_iff_firstUnreduced? (c : Channel) (t : Tile side) :
    t.Reduced c ↔ t.firstUnreduced? c.modulus = none := by
  simp only [Reduced, firstUnreduced?, List.find?_eq_none, decide_eq_true_eq, UInt64.not_le]
  constructor
  · intro h x hx
    obtain ⟨k, hk, rfl⟩ := List.mem_iff_getElem.1 hx
    rw [Vector.getElem_toList]
    exact h ⟨k, by simpa using hk⟩
  · intro h k
    exact h _ (Vector.mem_toList_iff.2 (Vector.getElem_mem k.isLt))

end Tile

end RnsEngine
