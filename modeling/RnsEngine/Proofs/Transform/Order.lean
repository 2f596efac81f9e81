import Mathlib.Data.List.FinRange
import Mathlib.Data.List.Nodup
import RnsEngine.Proofs.Transform.Stage
import RnsEngine.Proofs.Word.Reversal

/-!
# The order of a lane

The words of a lane enter the first stage in the order `inputOrder`, which takes every position of
the lane once and leads back when it is followed twice. In a stage the butterflies take two
positions each, computed from their number by shifts and masks of words (`Butterfly.positions`).
Together these are the positions of the lane, each once (`Butterfly.taken_perm`). Butterflies with
different numbers therefore do not see each other, and a stage comes to the same whatever order they
run in (`Lanes.foldl_combine_eq`).
-/

namespace RnsEngine

/-! ### The input of the first stage -/

/-- The positions that the words of a lane are read from, in the order of those that they go to. -/
def inputOrder (g : Geometry) : List ℕ :=
  (List.range g.side).map fun i => (reverseLowest (.ofNat i) g.logSide).toNat

section InputOrder

variable (g : Geometry)

/-- The positions that are read from are the reversed ones. -/
theorem inputOrder_eq :
    inputOrder g = (List.finRange g.side).map fun i => (bitReversed g i).val := by
  rw [inputOrder, ← List.map_coe_finRange_eq_range, List.map_map]
  refine List.map_congr_left fun i _ => ?_
  rw [Function.comp_apply, toNat_reverseLowest _ g.logSide_lt.le, g.toNat_ofNat_place, bitReversed]

/-- Reversing the bits of a position twice gives the position back. -/
theorem bitReversed_bitReversed (i : Fin g.side) : bitReversed g (bitReversed g i) = i :=
  Fin.ext (reverseBits_reverseBits i.isLt)

/-- Every position is read from once. -/
theorem inputOrder_perm : (inputOrder g).Perm (List.range g.side) := by
  have hinv : Function.Involutive (bitReversed g) := bitReversed_bitReversed g
  have hperm := (Equiv.Perm.map_finRange_perm hinv.toPerm).map Fin.val
  rw [inputOrder_eq, ← List.map_coe_finRange_eq_range]
  rwa [List.map_map] at hperm

/-- The order takes every position to its reversal, and that back to the position. -/
theorem getElem?_inputOrder (i : Fin g.side) :
    (inputOrder g)[i.val]? = some (bitReversed g i).val ∧
      (inputOrder g)[(bitReversed g i).val]? = some i.val := by
  have hget : ∀ i : Fin g.side, (inputOrder g)[i.val]? = some (bitReversed g i).val := fun i => by
    simp [inputOrder_eq]
  have hback := hget (bitReversed g i)
  rw [bitReversed_bitReversed] at hback
  exact ⟨hget i, hback⟩

end InputOrder

/-! ### The positions of a stage -/

namespace Butterfly

/-- The two positions of a butterfly of a stage, computed in words. -/
def positions (stage : ℕ) (b : UInt64) : UInt64 × UInt64 :=
  let span : UInt64 := 1 <<< UInt64.ofNat stage
  let p := (b >>> UInt64.ofNat stage) * (span <<< 1) + (b &&& (span - 1))
  (p, p + span)

/-- The positions that the butterflies of a stage take, in the order of their numbers. -/
def taken (g : Geometry) (stage : ℕ) : List ℕ :=
  (List.range g.half).flatMap fun b =>
    [(positions stage (.ofNat b)).1.toNat, (positions stage (.ofNat b)).2.toNat]

/-- The words are the positions, in every stage that a word has a bit for. -/
theorem toNat_positions {stage : ℕ} (hstage : stage < 64) (b : UInt64) :
    (positions stage b).1.toNat = first stage b.toNat ∧
      (positions stage b).2.toNat = second stage b.toNat := by
  have hspan := toNat_one_shiftLeft hstage
  have hshift : (UInt64.ofNat stage).toNat % 64 = stage := by
    rw [UInt64.toNat_ofNat_of_lt' (Nat.lt_trans hstage (by decide)), Nat.mod_eq_of_lt hstage]
  have hgroup : (b >>> UInt64.ofNat stage).toNat = b.toNat / 2 ^ stage := by
    rw [UInt64.toNat_shiftRight, hshift, Nat.shiftRight_eq_div_pow]
  have hstep : (((1 : UInt64) <<< UInt64.ofNat stage) <<< 1).toNat = 2 ^ stage * 2 % 2 ^ 64 := by
    have hone : (1 : UInt64).toNat % 64 = 1 := rfl
    rw [UInt64.toNat_shiftLeft, hone, hspan, Nat.shiftLeft_eq, Nat.pow_one]
  have hfirst : (positions stage b).1.toNat = first stage b.toNat := by
    rw [positions, UInt64.toNat_add, UInt64.toNat_mul, hgroup, hstep, toNat_and_pred hspan, hspan,
      Nat.mul_mod_mod, Nat.mod_add_mod, first]
  refine ⟨hfirst, ?_⟩
  rw [second, ← hfirst, ← hspan, ← UInt64.toNat_add]
  rfl

variable {g : Geometry} (s : Fin g.logSide)

/-- In a lane the numbers of the butterflies are words, and so are their positions. -/
theorem toNat_positions_lane (b : Fin g.half) :
    (positions s (.ofNat b)).1.toNat = first s b ∧
      (positions s (.ofNat b)).2.toNat = second s b := by
  have h := toNat_positions (Nat.lt_trans s.isLt g.logSide_lt) (.ofNat b)
  rwa [UInt64.toNat_ofNat_of_lt' (Nat.lt_trans b.isLt g.half_lt)] at h

/-- The positions that are taken are the first and the second ones. -/
theorem taken_eq :
    taken g s = (List.finRange g.half).flatMap fun b : Fin g.half => [first s b, second s b] := by
  rw [taken, ← List.map_coe_finRange_eq_range, List.flatMap_map]
  refine List.flatMap_congr fun b _ => ?_
  obtain ⟨hfirst, hsecond⟩ := toNat_positions_lane s b
  rw [hfirst, hsecond]

/-- No position is taken twice: a position has one owner, and the two positions of a butterfly
differ. -/
theorem nodup_taken : (taken g s).Nodup := by
  have howner : ∀ (b : Fin g.half) p, p ∈ [first s b, second s b] → owner s p = b := by
    intro b p hp
    rcases List.mem_pair.1 hp with rfl | rfl
    · exact owner_first s b
    · exact owner_second s b
  rw [taken_eq, List.nodup_flatMap]
  refine ⟨fun b _ => by simp [first_ne_second s b], ?_⟩
  refine List.Pairwise.imp (fun hne p hp hp' => hne (Fin.ext ?_)) (List.nodup_finRange g.half)
  rw [← howner _ p hp, howner _ p hp']

/-- **The pairs of a stage.** They take every position of the lane, each once. -/
theorem taken_perm : (taken g s).Perm (List.range g.side) := by
  have hsub : taken g s ⊆ List.range g.side := by
    intro p hp
    rw [taken_eq, List.mem_flatMap] at hp
    obtain ⟨b, -, hp⟩ := hp
    rw [List.mem_range]
    rcases List.mem_pair.1 hp with rfl | rfl
    · exact first_lt s b
    · exact second_lt s b
  -- there are as many of them as there are positions
  have hlength : (taken g s).length = g.side := by
    rw [taken_eq, List.length_flatMap, ← g.two_mul_half]
    simp [Nat.mul_comm]
  refine (List.subperm_of_subset (nodup_taken s) hsub).perm_of_length_le ?_
  rw [List.length_range, hlength]

/-- Every position of the lane is one of a butterfly. -/
theorem exists_position {p : ℕ} (hp : p < g.side) :
    ∃ b : Fin g.half, p = first s b ∨ p = second s b := by
  have hmem := (taken_perm s).mem_iff.2 (List.mem_range.2 hp)
  rw [taken_eq, List.mem_flatMap] at hmem
  obtain ⟨b, -, hb⟩ := hmem
  exact ⟨b, List.mem_pair.1 hb⟩

end Butterfly

/-! ### The order of the butterflies -/

namespace Lanes

open Butterfly

variable {g : Geometry} (c : Channel) (t : Table) (h : t.Covers g) (s : Fin g.logSide)

/-- A lane is determined by the pairs of a stage. -/
theorem ext_pair {v w : Vector UInt64 g.side} (hpair : ∀ b, pair v s b = pair w s b) : v = w := by
  refine Vector.ext fun p hp => ?_
  obtain ⟨b, rfl | rfl⟩ := exists_position s hp
  · exact congrArg Prod.fst (hpair b)
  · exact congrArg Prod.snd (hpair b)

/-- Of two butterflies of a stage either may be the first. -/
theorem combine_comm (v : Vector UInt64 g.side) (b b' : Fin g.half) :
    combine c t h s (combine c t h s v b) b' = combine c t h s (combine c t h s v b') b := by
  by_cases hne : b = b'
  · rw [hne]
  · refine ext_pair s fun i => ?_
    by_cases hb : i = b
    · subst hb
      rw [pair_combine_of_ne c t h s _ hne, pair_combine_self, pair_combine_self,
        pair_combine_of_ne c t h s _ hne]
    · rw [pair_combine_of_ne c t h s (combine c t h s v b') hb]
      by_cases hb' : i = b'
      · subst hb'
        rw [pair_combine_self, pair_combine_self, pair_combine_of_ne c t h s v hb]
      · rw [pair_combine_of_ne c t h s _ hb', pair_combine_of_ne c t h s _ hb,
          pair_combine_of_ne c t h s _ hb']

/-- **Any order.** The butterflies of a stage may run in any order. -/
theorem foldl_combine_eq {order : List (Fin g.half)} (horder : order.Perm (List.finRange g.half))
    (v : Vector UInt64 g.side) : order.foldl (combine c t h s) v = stage c t h v s := by
  rw [stage, Fin.foldl_eq_finRange_foldl]
  exact horder.foldl_eq' (fun b _ b' _ v => combine_comm c t h s v b b') v

/-- **The positions of a lane.** Reversing up to 64 bits of a word reverses the digits of its
number: it puts each in the opposite place and leaves no others, which undoes itself on words
without other bits. In every geometry the words of a lane enter the first stage in an order that
takes each position once and is its own inverse. The two positions of a butterfly, as they are
computed in words, are `2 ^ s` apart in stage `s`, and those of all its butterflies are the
positions of the lane, each once. Whatever order the butterflies of a stage run in, the lane comes
to the same. -/
theorem lane_positions :
    (∀ (x : UInt64) (n : ℕ), n ≤ 64 →
      (reverseLowest x n).toNat = reverseBits x.toNat n ∧
      (∀ j, (reverseLowest x n).toNat.testBit j =
        (decide (j < n) && x.toNat.testBit (n - 1 - j))) ∧
      (reverseLowest x n).toNat < 2 ^ n ∧
      (x.toNat < 2 ^ n → reverseLowest (reverseLowest x n) n = x)) ∧
    (∀ x, reverseLowest x 0 = 0) ∧
    ∀ g : Geometry,
      (inputOrder g).Perm (List.range g.side) ∧
      (∀ i : Fin g.side, (inputOrder g)[i.val]? = some (bitReversed g i).val ∧
        (inputOrder g)[(bitReversed g i).val]? = some i.val) ∧
      ∀ s : Fin g.logSide,
        (∀ b : Fin g.half, (positions s (.ofNat b)).1.toNat = first s b ∧
          (positions s (.ofNat b)).2.toNat = second s b ∧ second s b = first s b + 2 ^ s.val) ∧
        (taken g s).Perm (List.range g.side) ∧
        ∀ (c : Channel) (t : Table) (h : t.Covers g) (order : List (Fin g.half)),
          order.Perm (List.finRange g.half) → ∀ v : Vector UInt64 g.side,
            order.foldl (combine c t h s) v = stage c t h v s := by
  refine ⟨fun x n hn => ⟨toNat_reverseLowest x hn, testBit_reverseLowest x hn, ?_,
    reverseLowest_reverseLowest hn⟩, reverseLowest_zero, fun g => ⟨inputOrder_perm g,
      getElem?_inputOrder g, fun s => ⟨fun b => ?_, taken_perm s,
        fun c t h _ horder => foldl_combine_eq c t h s horder⟩⟩⟩
  · rw [toNat_reverseLowest x hn]
    exact reverseBits_lt _ _
  · obtain ⟨hfirst, hsecond⟩ := toNat_positions_lane s b
    exact ⟨hfirst, hsecond, second_eq s b⟩

/-- In a lane of four words the butterflies of the last stage take the positions 0 and 2, 1 and 3.
They may run backwards. -/
theorem lane_positions_backwards :
    reverseLowest (reverseLowest 6 3) 3 = 6 ∧
      ∃ (g : Geometry) (s : Fin g.logSide) (c : Channel) (t : Table) (h : t.Covers g)
        (order : List (Fin g.half)) (v : Vector UInt64 g.side),
        inputOrder g = [0, 2, 1, 3] ∧ taken g s = [0, 2, 1, 3] ∧
          order.map Fin.val = [1, 0] ∧ order.Perm (List.finRange g.half) ∧
          v.toList = [1, 2, 3, 4] ∧ order.foldl (combine c t h s) v = stage c t h v s ∧
          (stage c t h v s).toList = [4, 6, 95, 95] := by
  let g : Geometry := ⟨2, 1, by decide, by decide, by decide⟩
  let c : Channel := ⟨97, Barrett.ofModulus 97, by decide, by decide, rfl⟩
  let t : Table := ⟨.forward, Array.replicate 32 1⟩
  let s : Fin g.logSide := ⟨1, by decide⟩
  let order : List (Fin g.half) := [⟨1, by decide⟩, ⟨0, by decide⟩]
  have hstage : ∀ h : t.Covers g, (stage c t h #v[1, 2, 3, 4] s).toList = [4, 6, 95, 95] := by
    decide +kernel
  have hinput : inputOrder g = [0, 2, 1, 3] := by decide +kernel
  have htaken : taken g s = [0, 2, 1, 3] := by decide +kernel
  have ht : t.Covers g := by decide
  have horder : order.Perm (List.finRange g.half) := by decide
  obtain ⟨hword, -, hlane⟩ := lane_positions
  obtain ⟨-, -, hrun⟩ := (hlane g).2.2 s
  exact ⟨(hword 6 3 (by decide)).2.2.2 (by decide), g, s, c, t, ht, order, #v[1, 2, 3, 4],
    hinput, htaken, rfl, horder, rfl, hrun c t ht order horder _, hstage ht⟩

end Lanes

end RnsEngine
