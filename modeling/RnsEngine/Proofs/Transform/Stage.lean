import Mathlib.Data.Nat.Notation
import RnsEngine.Proofs.Fold
import RnsEngine.Transform.Lane

/-!
# One stage of butterflies

The butterflies of a stage write into the lane that they read. No two of them share a position,
so each finds the words that the lane held before the stage: `Lanes.pair_stage` gives the two words
of every pair after the stage from those before it. The butterfly that owns a position is read off
the position (`Butterfly.owner`), which is what keeps the pairs apart.
-/

namespace RnsEngine

namespace Butterfly

variable {g : Geometry}

/-- The butterfly of a stage that a position of the lane belongs to. -/
def owner (stage position : ℕ) : ℕ :=
  position / (2 ^ stage * 2) * 2 ^ stage + position % 2 ^ stage

/-- Positions in the same place of either half of a group have the same owner. -/
theorem owner_eq {stage place : ℕ} (group half : ℕ) (hplace : place < 2 ^ stage)
    (hhalf : half < 2) :
    owner stage (group * (2 ^ stage * 2) + place + 2 ^ stage * half) =
      group * 2 ^ stage + place := by
  have hlt : place + 2 ^ stage * half < 2 ^ stage * 2 := by
    have : 2 ^ stage * half ≤ 2 ^ stage * 1 := Nat.mul_le_mul_left _ (by omega)
    omega
  have hdiv : (group * (2 ^ stage * 2) + place + 2 ^ stage * half) / (2 ^ stage * 2) = group := by
    rw [Nat.add_assoc, Nat.mul_comm group, Nat.mul_add_div (by omega), Nat.div_eq_of_lt hlt,
      Nat.add_zero]
  have hmod : (group * (2 ^ stage * 2) + place + 2 ^ stage * half) % 2 ^ stage = place := by
    rw [Nat.add_mul_mod_self_left, Nat.mul_left_comm, Nat.add_comm, Nat.add_mul_mod_self_left,
      Nat.mod_eq_of_lt hplace]
  rw [owner, hdiv, hmod]

/-- A butterfly owns its first position. -/
theorem owner_first (s : Fin g.logSide) (b : Fin g.half) : owner s (first s b) = b := by
  have h := owner_eq (b / 2 ^ s.val) 0 (Nat.mod_lt b.val (Nat.two_pow_pos s.val))
    (by decide)
  rw [Nat.mul_zero, Nat.add_zero, Nat.div_add_mod'] at h
  rw [first_eq, h]

/-- A butterfly owns its second position. -/
theorem owner_second (s : Fin g.logSide) (b : Fin g.half) : owner s (second s b) = b := by
  have h := owner_eq (b / 2 ^ s.val) 1 (Nat.mod_lt b.val (Nat.two_pow_pos s.val))
    (by decide)
  rw [Nat.mul_one, Nat.div_add_mod'] at h
  rw [second_eq, first_eq, h]

/-- The length of the lane in groups of a stage. -/
theorem side_eq_groups (s : Fin g.logSide) :
    g.side = 2 ^ (g.logSide - 1 - s.val) * (2 ^ s.val * 2) := by
  rw [Geometry.side, ← Nat.pow_succ, ← Nat.pow_add]
  congr 1
  omega

/-- Any place in the lower half of a group is the first position of a butterfly, and the place
`2 ^ stage` further on is its second position. -/
theorem exists_first_eq (s : Fin g.logSide) {group place : ℕ} (hplace : place < 2 ^ s.val)
    (hlt : group * (2 ^ s.val * 2) < g.side) :
    ∃ b : Fin g.half, b.val % 2 ^ s.val = place ∧
      first s b = group * (2 ^ s.val * 2) + place ∧
      second s b = group * (2 ^ s.val * 2) + place + 2 ^ s.val := by
  have hgroup : group < 2 ^ (g.logSide - 1 - s.val) :=
    Nat.lt_of_mul_lt_mul_right (side_eq_groups s ▸ hlt)
  have hle : (group + 1) * 2 ^ s.val ≤ 2 ^ (g.logSide - 1 - s.val) * 2 ^ s.val :=
    Nat.mul_le_mul_right _ hgroup
  have hhalf : g.half = 2 ^ (g.logSide - 1 - s.val) * 2 ^ s.val := by
    have h2 := g.two_mul_half
    rw [side_eq_groups s, ← Nat.mul_assoc] at h2
    omega
  have hdiv : (group * 2 ^ s.val + place) / 2 ^ s.val = group := by
    rw [Nat.mul_comm, Nat.mul_add_div (Nat.two_pow_pos _), Nat.div_eq_of_lt hplace, Nat.add_zero]
  have hmod : (group * 2 ^ s.val + place) % 2 ^ s.val = place := by
    rw [Nat.mul_add_mod_self_right, Nat.mod_eq_of_lt hplace]
  have hb : group * 2 ^ s.val + place < g.half := by
    rw [Nat.add_mul, Nat.one_mul] at hle
    omega
  refine ⟨⟨_, hb⟩, hmod, ?_, ?_⟩
  · rw [first_eq, hdiv, hmod]
  · rw [second_eq, first_eq, hdiv, hmod]

/-- Positions of different butterflies differ. -/
theorem ne_of_owner_ne {stage p p' : ℕ} (h : owner stage p ≠ owner stage p') : p ≠ p' :=
  fun hp => h (congrArg _ hp)

end Butterfly

namespace Lanes

open Butterfly

variable {g : Geometry} (c : Channel) (t : Table) (h : t.Covers g) (s : Fin g.logSide)

/-- The two words of a lane that a butterfly combines. -/
def pair (v : Vector UInt64 g.side) (s : Fin g.logSide) (b : Fin g.half) : UInt64 × UInt64 :=
  (getElem v (first s b) (first_lt s b), getElem v (second s b) (second_lt s b))

/-- A butterfly replaces its own words. -/
theorem pair_combine_self (v : Vector UInt64 g.side) (b : Fin g.half) :
    pair (combine c t h s v b) s b =
      c.butterfly (pair v s b).1 (pair v s b).2 (t.read h (.stage s b)) := by
  simp [pair, combine, Vector.getElem_set_ne _ _ (first_ne_second s b).symm]

/-- A butterfly leaves the words of all others alone. -/
theorem pair_combine_of_ne (v : Vector UInt64 g.side) {b b' : Fin g.half} (hb : b' ≠ b) :
    pair (combine c t h s v b) s b' = pair v s b' := by
  have hval : b.val ≠ b'.val := fun heq => hb (Fin.ext heq.symm)
  have hff : first s b ≠ first s b' := ne_of_owner_ne (by rwa [owner_first, owner_first])
  have hfs : first s b ≠ second s b' := ne_of_owner_ne (by rwa [owner_first, owner_second])
  have hsf : second s b ≠ first s b' := ne_of_owner_ne (by rwa [owner_second, owner_first])
  have hss : second s b ≠ second s b' := ne_of_owner_ne (by rwa [owner_second, owner_second])
  simp [pair, combine, Vector.getElem_set_ne _ _ hff, Vector.getElem_set_ne _ _ hfs,
    Vector.getElem_set_ne _ _ hsf, Vector.getElem_set_ne _ _ hss]

/-- **One stage.** After a stage every pair is the butterfly of what it was before. -/
theorem pair_stage (v : Vector UInt64 g.side) (b : Fin g.half) :
    pair (stage c t h v s) s b =
      c.butterfly (pair v s b).1 (pair v s b).2 (t.read h (.stage s b)) := by
  -- the butterflies that have had their turn have their result, the others their old words
  have hall := foldl_carries (fun m (w : Vector UInt64 g.side) => ∀ b : Fin g.half,
      pair w s b = if b.val < m then
        c.butterfly (pair v s b).1 (pair v s b).2 (t.read h (.stage s b)) else pair v s b)
    (combine c t h s) (s := v) (fun b => by simp) (fun i w hw b => ?_)
  · rw [stage, hall b, if_pos b.isLt]
  · by_cases hb : b = i
    · subst hb
      rw [pair_combine_self, hw b, if_neg (Nat.lt_irrefl _), if_pos (Nat.lt_succ_self _)]
    · have hval : b.val ≠ i.val := fun heq => hb (Fin.ext heq)
      have hlt : b.val < i.val + 1 ↔ b.val < i.val := by omega
      simp only [pair_combine_of_ne c t h s w hb, hw b, hlt]

end Lanes

end RnsEngine
