import Mathlib.Data.Nat.Notation
import RnsEngine.Word.Bits

/-!
# Reversal in words

The lowest bits of a word are reversed by reversing all of them and shifting the result down, past
the bits that were not asked for. Asked for no bits at all the shift would be as wide as the word:
such a shift has no result (`shiftRight?`), and zero takes its place. The bits of the outcome are
those of the word in the opposite places (`testBit_reverseLowest`), so that it is the reversal of
the digits of a number (`toNat_reverseLowest`).
-/

namespace RnsEngine

/-- All bits of a word in reverse order. -/
def reverseWord (x : UInt64) : UInt64 := .ofBitVec x.toBitVec.reverse

/-- A word shifted down by fewer places than it has. -/
def shiftRight? (x : UInt64) (places : ℕ) : Option UInt64 :=
  if places < 64 then some (x >>> .ofNat places) else none

/-- The `count` lowest bits of a word in reverse order, for up to 64 of them. -/
def reverseLowest (x : UInt64) (count : ℕ) : UInt64 :=
  (shiftRight? (reverseWord x) (64 - count)).getD 0

/-- Every bit of a reversed word is the one in the opposite place. -/
theorem testBit_reverseWord (x : UInt64) (j : ℕ) :
    (reverseWord x).toNat.testBit j = (decide (j < 64) && x.toNat.testBit (63 - j)) := by
  rw [reverseWord, UInt64.toNat_ofBitVec, BitVec.testBit_toNat, BitVec.getLsbD_reverse,
    BitVec.getMsbD_eq_getLsbD, ← BitVec.testBit_toNat, UInt64.toNat_toBitVec]

/-- Shifting down moves every bit by so many places. -/
theorem testBit_shiftRight {x y : UInt64} {places : ℕ} (h : shiftRight? x places = some y)
    (j : ℕ) : y.toNat.testBit j = x.toNat.testBit (places + j) := by
  rw [shiftRight?, Option.ite_none_right_eq_some] at h
  obtain ⟨hplaces, hy⟩ := h
  have hword : (UInt64.ofNat places).toNat = places :=
    UInt64.toNat_ofNat_of_lt' (Nat.lt_trans hplaces (by decide))
  rw [← Option.some.inj hy, UInt64.toNat_shiftRight, hword, Nat.mod_eq_of_lt hplaces,
    Nat.testBit_shiftRight]

/-- No bits are reversed to zero. -/
theorem reverseLowest_zero (x : UInt64) : reverseLowest x 0 = 0 := rfl

/-- Bit `j` of a reversal is the bit in the opposite place, and there are no others. -/
theorem testBit_reverseLowest (x : UInt64) {count : ℕ} (hcount : count ≤ 64) (j : ℕ) :
    (reverseLowest x count).toNat.testBit j =
      (decide (j < count) && x.toNat.testBit (count - 1 - j)) := by
  rcases Nat.eq_zero_or_pos count with rfl | hpos
  · simp [reverseLowest_zero]
  · have hshift : shiftRight? (reverseWord x) (64 - count) = some (reverseLowest x count) := by
      rw [reverseLowest, shiftRight?, if_pos (by omega), Option.getD_some]
    have hlt : 64 - count + j < 64 ↔ j < count := by omega
    have hplace : 63 - (64 - count + j) = count - 1 - j := by omega
    rw [testBit_shiftRight hshift, testBit_reverseWord, hplace]
    simp only [hlt]

/-- Reversing bits of a word reverses digits of its number. -/
theorem toNat_reverseLowest (x : UInt64) {count : ℕ} (hcount : count ≤ 64) :
    (reverseLowest x count).toNat = reverseBits x.toNat count := by
  refine Nat.eq_of_testBit_eq fun j => ?_
  rw [testBit_reverseLowest x hcount]
  by_cases hj : j < count
  · rw [testBit_reverseBits _ hj, decide_eq_true hj, Bool.true_and]
  · have hlt : reverseBits x.toNat count < 2 ^ j :=
      Nat.lt_of_lt_of_le (reverseBits_lt _ _)
        (Nat.pow_le_pow_right (by decide) (Nat.le_of_not_lt hj))
    rw [Nat.testBit_lt_two_pow hlt, decide_eq_false hj, Bool.false_and]

/-- Reversing the bits of a word that has no others twice gives the word back. -/
theorem reverseLowest_reverseLowest {x : UInt64} {count : ℕ} (hcount : count ≤ 64)
    (hx : x.toNat < 2 ^ count) : reverseLowest (reverseLowest x count) count = x := by
  rw [← UInt64.toNat_inj, toNat_reverseLowest _ hcount, toNat_reverseLowest _ hcount,
    reverseBits_reverseBits hx]

end RnsEngine
