import RnsEngine.Word.Bits

/-!
# Arithmetic on reduced words

Sum, difference, negation and product modulo `q` of words that are below `q`, as a datapath
of 64-bit words computes them. No operation divides: a value that may have passed `q` is
corrected by `reduceOnce`, the smaller of `x` and `x - q` on the wrapping word circle, and the
quotient of a product is estimated with a precomputed reciprocal.

The main facts, for operands below `q`, are `toNat_addMod`, `toNat_subMod` and `toNat_negMod`:
the word result is the exact residue. That of a product is exact as well whenever the estimate of
the quotient is at most two below it (`toNat_mulMod`).
-/

namespace RnsEngine

/-- The smaller of `x` and `x - q`, where the difference wraps around below zero. -/
def reduceOnce (x q : UInt64) : UInt64 := min x (x - q)

/-- The sum of two reduced words. -/
def addMod (a b q : UInt64) : UInt64 := reduceOnce (a + b) q

/-- The difference of two reduced words; the modulus is added where it would be negative. -/
def subMod (a b q : UInt64) : UInt64 :=
  if b ≤ a then a - b else a + q - b

/-- The negative of a reduced word, zero for zero. -/
def negMod (a q : UInt64) : UInt64 :=
  if a = 0 then 0 else q - a

/-- The quotient of `p` by a modulus of `bits` digits, estimated from its reciprocal
`multiplier`; both factors of the inner product are words. -/
def estimateQuotient (p : Nat) (multiplier : UInt64) (bits : Nat) : UInt64 :=
  let top := UInt64.ofNat (p >>> (bits - 1))
  UInt64.ofNat ((top.toNat * multiplier.toNat) >>> (bits + 1))

/-- The product of two reduced words: the estimated multiple of `q` is taken off in word
arithmetic, and two corrections make up for what the estimate missed. -/
def mulMod (a b q multiplier : UInt64) (bits : Nat) : UInt64 :=
  let p := a.toNat * b.toNat
  let r := UInt64.ofNat p - estimateQuotient p multiplier bits * q
  reduceOnce (reduceOnce r q) q

/-! ### Exactness on reduced operands -/

/-- The smaller of two words has the smaller value. -/
theorem toNat_reduceOnce_eq_min (x q : UInt64) :
    (reduceOnce x q).toNat = min x.toNat (x - q).toNat := by
  rw [reduceOnce, show min x (x - q) = if x ≤ x - q then x else x - q from rfl]
  split
  · next h => rw [Nat.min_eq_left (UInt64.le_iff_toNat_le.1 h)]
  · next h =>
    have h' : ¬ x.toNat ≤ (x - q).toNat := fun hle => h (UInt64.le_iff_toNat_le.2 hle)
    rw [Nat.min_eq_right (Nat.le_of_not_le h')]

/-- A word below the modulus is left alone. -/
theorem toNat_reduceOnce_of_lt {x q : UInt64} (h : x.toNat < q.toNat) :
    (reduceOnce x q).toNat = x.toNat := by
  have hxs := x.toNat_lt
  have hqs := q.toNat_lt
  rw [toNat_reduceOnce_eq_min, UInt64.toNat_sub, Nat.mod_eq_of_lt (by omega)]
  omega

/-- From any other word the modulus is taken off. -/
theorem toNat_reduceOnce_of_le {x q : UInt64} (h : q.toNat ≤ x.toNat) :
    (reduceOnce x q).toNat = x.toNat - q.toNat := by
  have hxs := x.toNat_lt
  have hsub : (x - q).toNat = x.toNat - q.toNat := by
    rw [UInt64.toNat_sub]
    omega
  rw [toNat_reduceOnce_eq_min, hsub]
  omega

/-- Below twice the modulus, one correction is the residue. -/
theorem toNat_reduceOnce {x q : UInt64} (hx : x.toNat < 2 * q.toNat) :
    (reduceOnce x q).toNat = x.toNat % q.toNat := by
  rcases Nat.lt_or_ge x.toNat q.toNat with h | h
  · rw [toNat_reduceOnce_of_lt h, Nat.mod_eq_of_lt h]
  · rw [toNat_reduceOnce_of_le h, Nat.mod_eq_sub_mod h, Nat.mod_eq_of_lt (by omega)]

/-- Below three times the modulus, one correction leaves less than twice the modulus. -/
theorem toNat_reduceOnce_lt {x q : UInt64} (hx : x.toNat < 3 * q.toNat) :
    (reduceOnce x q).toNat < 2 * q.toNat := by
  rcases Nat.lt_or_ge x.toNat q.toNat with h | h
  · rw [toNat_reduceOnce_of_lt h]
    omega
  · rw [toNat_reduceOnce_of_le h]
    omega

/-- Below three times the modulus, two corrections are the residue. -/
theorem toNat_reduceOnce_twice {x q : UInt64} (hx : x.toNat < 3 * q.toNat) :
    (reduceOnce (reduceOnce x q) q).toNat = x.toNat % q.toNat := by
  rw [toNat_reduceOnce (toNat_reduceOnce_lt hx)]
  rcases Nat.lt_or_ge x.toNat q.toNat with h | h
  · rw [toNat_reduceOnce_of_lt h]
  · rw [toNat_reduceOnce_of_le h, ← Nat.mod_eq_sub_mod h]

/-- Addition is exact. -/
theorem toNat_addMod {a b q : UInt64} (ha : a.toNat < q.toNat) (hb : b.toNat < q.toNat)
    (hq : q.toNat < 2 ^ 63) : (addMod a b q).toNat = (a.toNat + b.toNat) % q.toNat := by
  have hsum : (a + b).toNat = a.toNat + b.toNat := by
    rw [UInt64.toNat_add]
    omega
  rw [addMod, toNat_reduceOnce (by omega), hsum]

/-- Subtraction is exact. -/
theorem toNat_subMod {a b q : UInt64} (ha : a.toNat < q.toNat) (hb : b.toNat < q.toNat)
    (hq : q.toNat < 2 ^ 63) :
    (subMod a b q).toNat = (a.toNat + (q.toNat - b.toNat)) % q.toNat := by
  unfold subMod
  split
  · next h =>
    have h' := UInt64.le_iff_toNat_le.1 h
    rw [UInt64.toNat_sub, show a.toNat + (q.toNat - b.toNat) = a.toNat - b.toNat + q.toNat by omega,
      Nat.add_mod_right, Nat.mod_eq_of_lt (show a.toNat - b.toNat < q.toNat by omega)]
    omega
  · next h =>
    have h' : ¬ b.toNat ≤ a.toNat := fun hle => h (UInt64.le_iff_toNat_le.2 hle)
    rw [UInt64.toNat_sub, UInt64.toNat_add,
      Nat.mod_eq_of_lt (show a.toNat + (q.toNat - b.toNat) < q.toNat by omega)]
    omega

/-- Negation is exact. -/
theorem toNat_negMod {a q : UInt64} (ha : a.toNat < q.toNat) :
    (negMod a q).toNat = (q.toNat - a.toNat) % q.toNat := by
  unfold negMod
  split
  · next h => simp [h]
  · next h =>
    have h0 : a.toNat ≠ 0 := fun h0 => h (UInt64.toNat_inj.1 h0)
    have hqs := q.toNat_lt
    rw [UInt64.toNat_sub, Nat.mod_eq_of_lt (show q.toNat - a.toNat < q.toNat by omega)]
    omega

/-- What word arithmetic leaves of a number is exact when the estimate does not exceed the quotient
and is at most two below it. -/
theorem toNat_sub_estimate {p : Nat} {estimate q : UInt64} (hq : q.toNat < 2 ^ 62)
    (hle : estimate.toNat * q.toNat ≤ p) (hlt : p < (estimate.toNat + 3) * q.toNat) :
    (UInt64.ofNat p - estimate * q).toNat = p - estimate.toNat * q.toNat := by
  rw [Nat.add_mul] at hlt
  rw [UInt64.toNat_sub, UInt64.toNat_ofNat', UInt64.toNat_mul]
  generalize estimate.toNat * q.toNat = m at hle hlt
  omega

/-- Two corrections of what such an estimate leaves are the residue. -/
theorem toNat_reduceOnce_sub_estimate {p : Nat} {estimate q : UInt64} (hq : q.toNat < 2 ^ 62)
    (hle : estimate.toNat * q.toNat ≤ p) (hlt : p < (estimate.toNat + 3) * q.toNat) :
    (reduceOnce (reduceOnce (UInt64.ofNat p - estimate * q) q) q).toNat = p % q.toNat := by
  have hsub := toNat_sub_estimate hq hle hlt
  rw [Nat.add_mul] at hlt
  rw [toNat_reduceOnce_twice (by omega), hsub, Nat.mul_comm estimate.toNat, Nat.sub_mul_mod]
  rw [Nat.mul_comm]
  exact hle

/-- Multiplication is exact for an estimate that does not exceed the quotient and is at most two
below it. -/
theorem toNat_mulMod {a b q multiplier : UInt64} {bits : Nat} (hq : q.toNat < 2 ^ 62)
    (hle : (estimateQuotient (a.toNat * b.toNat) multiplier bits).toNat * q.toNat ≤
      a.toNat * b.toNat)
    (hlt : a.toNat * b.toNat <
      ((estimateQuotient (a.toNat * b.toNat) multiplier bits).toNat + 3) * q.toNat) :
    (mulMod a b q multiplier bits).toNat = a.toNat * b.toNat % q.toNat :=
  toNat_reduceOnce_sub_estimate hq hle hlt

end RnsEngine
