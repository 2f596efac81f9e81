/-!
# Bits of a word

Facts about the binary form of a number that the rest of the library is built on: the count of its
digits, the reversal of its lowest digits, the exponent of a power of two, and the check by which a
word is found to be one.
-/

namespace RnsEngine

-- powers of numbers are those of the core library, also where the monoid of numbers is in scope
attribute [scoped instance (2000), default_instance 20000] instPowNat

/-- The number of binary digits of `n`: the least `k` with `n < 2 ^ k`. -/
def bitLength (n : Nat) : Nat :=
  if n = 0 then 0 else n.log2 + 1

/-- Every number is below the power of two with its digit count. -/
theorem lt_two_pow_bitLength (n : Nat) : n < 2 ^ bitLength n := by
  unfold bitLength
  split
  · subst n; decide
  · exact Nat.lt_log2_self

/-- A positive number is at least half of that power. -/
theorem two_pow_le_of_pos {n : Nat} (h : 0 < n) : 2 ^ (bitLength n - 1) ≤ n := by
  have hn : n ≠ 0 := Nat.pos_iff_ne_zero.1 h
  simpa [bitLength, hn] using Nat.log2_self_le hn

/-- A number has no more digits than a power of two above it. -/
theorem bitLength_le_of_lt {n k : Nat} (h : n < 2 ^ k) : bitLength n ≤ k := by
  unfold bitLength
  split
  · exact Nat.zero_le k
  · next hn => exact (Nat.log2_lt hn).2 h

/-- Without its lowest digit a positive number has one digit less. -/
theorem bitLength_half {n : Nat} (h : n ≠ 0) : bitLength n = bitLength (n / 2) + 1 := by
  rw [bitLength, if_neg h, bitLength, Nat.log2_def]
  split
  · next htwo => rw [if_neg (by omega)]
  · next htwo => rw [if_pos (by omega)]

/-- The `count` lowest digits of `x` in reverse order; higher digits are dropped. -/
def reverseBits (x : Nat) : Nat → Nat
  | 0 => 0
  | count + 1 => x % 2 * 2 ^ count + reverseBits (x / 2) count

/-- A reversal has no digit beyond those that were reversed. -/
theorem reverseBits_lt (x count : Nat) : reverseBits x count < 2 ^ count := by
  induction count generalizing x with
  | zero => simp [reverseBits]
  | succ count ih =>
    have h := ih (x / 2)
    have hx : x % 2 ≤ 1 := by omega
    have hmul : x % 2 * 2 ^ count ≤ 1 * 2 ^ count := Nat.mul_le_mul_right _ hx
    rw [reverseBits, Nat.pow_succ]
    omega

/-- Digit `j` of a reversal is the digit in the opposite place. -/
theorem testBit_reverseBits (x : Nat) {count j : Nat} (hj : j < count) :
    (reverseBits x count).testBit j = x.testBit (count - 1 - j) := by
  induction count generalizing x j with
  | zero => omega
  | succ count ih =>
    rw [reverseBits, Nat.mul_comm, Nat.testBit_two_pow_mul_add _ (reverseBits_lt _ _)]
    split
    · next h =>
      rw [ih _ h, show count + 1 - 1 - j = (count - 1 - j) + 1 by omega, Nat.testBit_succ]
    · next h =>
      have hj' : j = count := by omega
      subst hj'
      simp

/-- Reversing twice the digits of a number that has no others gives the number back. -/
theorem reverseBits_reverseBits {x count : Nat} (hx : x < 2 ^ count) :
    reverseBits (reverseBits x count) count = x := by
  refine Nat.eq_of_testBit_eq fun j => ?_
  by_cases hj : j < count
  · rw [testBit_reverseBits _ hj, testBit_reverseBits _ (by omega)]
    congr 1
    omega
  · have hpow : 2 ^ count ≤ 2 ^ j := Nat.pow_le_pow_right (by decide) (by omega)
    rw [Nat.testBit_lt_two_pow (Nat.lt_of_lt_of_le (reverseBits_lt _ _) hpow),
      Nat.testBit_lt_two_pow (Nat.lt_of_lt_of_le hx hpow)]

/-- A number is a power of two when it is the power with the exponent `log2`. -/
def exactLog? (n : Nat) : Option Nat :=
  if n = 2 ^ n.log2 then some n.log2 else none

/-- The exponent is the one that gives the number. -/
theorem eq_two_pow_of_exactLog {n k : Nat} (h : exactLog? n = some k) : n = 2 ^ k := by
  unfold exactLog? at h
  split at h
  · next hn =>
    rw [Option.some.injEq] at h
    rw [← h]
    exact hn
  · simp at h

/-- Every power of two is recognised. -/
theorem exactLog_two_pow (k : Nat) : exactLog? (2 ^ k) = some k := by
  simp [exactLog?, Nat.log2_two_pow]

/-- The exponent that is found is the only one that gives the number. -/
theorem exactLog?_eq_some_iff {n k : Nat} : exactLog? n = some k ↔ n = 2 ^ k :=
  ⟨eq_two_pow_of_exactLog, fun h => h ▸ exactLog_two_pow k⟩

/-- No exponent is found exactly for the numbers that are no powers of two. -/
theorem exactLog?_eq_none_iff {n : Nat} : exactLog? n = none ↔ ¬ n.isPowerOfTwo := by
  simp only [Option.eq_none_iff_forall_ne_some, ne_eq, exactLog?_eq_some_iff, Nat.isPowerOfTwo,
    not_exists]

/-- Shifting a word by one place drops its lowest digit. -/
theorem toNat_shiftRight_one (w : UInt64) : (w >>> 1).toNat = w.toNat / 2 := by
  rw [UInt64.toNat_shiftRight]
  exact Nat.shiftRight_eq_div_pow w.toNat 1

/-- Shifting a word to the left by one place doubles it. -/
theorem toNat_shiftLeft_one {w : UInt64} (hlt : w.toNat < 2 ^ 63) :
    (w <<< 1).toNat = 2 * w.toNat := by
  have hone : (1 : UInt64).toNat % 64 = 1 := rfl
  rw [UInt64.toNat_shiftLeft, hone, Nat.shiftLeft_eq, Nat.pow_one, Nat.mul_comm]
  exact Nat.mod_eq_of_lt (by omega)

/-- Shifting one gives the powers of two. -/
theorem toNat_one_shiftLeft {k : Nat} (hk : k < 64) :
    ((1 : UInt64) <<< UInt64.ofNat k).toNat = 2 ^ k := by
  have hword : (UInt64.ofNat k).toNat = k :=
    UInt64.toNat_ofNat_of_lt' (Nat.lt_trans hk (by decide))
  rw [UInt64.toNat_shiftLeft, hword, Nat.mod_eq_of_lt hk, UInt64.toNat_one, Nat.shiftLeft_eq,
    Nat.one_mul, Nat.mod_eq_of_lt (Nat.pow_lt_pow_right (by decide) hk)]

/-- Masking a word with one takes its lowest digit. -/
theorem toNat_and_one (w : UInt64) : (w &&& 1).toNat = w.toNat % 2 := by
  rw [UInt64.toNat_and]
  exact Nat.and_one_is_mod w.toNat

/-- Masking a word with the predecessor of a power of two takes the remainder. -/
theorem toNat_and_pred {w : UInt64} {log : Nat} (hw : w.toNat = 2 ^ log) (x : UInt64) :
    (x &&& (w - 1)).toNat = x.toNat % w.toNat := by
  have hone : (1 : UInt64) ≤ w := by
    rw [UInt64.le_iff_toNat_le, hw]
    exact Nat.one_le_two_pow
  rw [UInt64.toNat_and, UInt64.toNat_sub_of_le _ _ hone, hw]
  exact Nat.and_two_pow_sub_one_eq_mod _ _

/-- The check of a word by the digits that it shares with its predecessor finds everything but the
powers of two. -/
theorem and_pred_check_iff {w : UInt64} :
    w = 0 ∨ w &&& (w - 1) ≠ 0 ↔ ¬ w.toNat.isPowerOfTwo := by
  have hzero : w = 0 ↔ w.toNat = 0 := UInt64.toNat_inj.symm
  rw [← Nat.ne_zero_and_sub_one_eq_zero_iff_isPowerOfTwo, Classical.not_and_iff_not_or_not,
    ne_eq, Classical.not_not, ← hzero]
  by_cases hw : w = 0
  · exact iff_of_true (.inl hw) (.inl hw)
  · have hone : (1 : UInt64) ≤ w :=
      UInt64.le_iff_toNat_le.2 (Nat.pos_of_ne_zero (mt hzero.2 hw))
    rw [or_iff_right hw, or_iff_right hw, ← UInt64.toNat_inj, UInt64.toNat_and,
      UInt64.toNat_sub_of_le _ _ hone]
    rfl

end RnsEngine
