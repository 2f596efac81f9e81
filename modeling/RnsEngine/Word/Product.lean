import RnsEngine.Word.Bits

/-!
# The full product of two words

A 64-bit word is a low and a high half. `karatsuba` forms the 128-bit product of two words
from three products of numbers of half the width; `karatsuba_eq` says that it is exact.
The products of the halves are word products: they fit, since each half is below `2 ^ 32`.
-/

namespace RnsEngine

/-- The 32 lowest digits of a word. -/
def lowHalf (x : UInt64) : UInt64 := x &&& 0xFFFFFFFF

/-- The 32 highest digits of a word. -/
def highHalf (x : UInt64) : UInt64 := x >>> 32

/-- The value of the low half. -/
theorem toNat_lowHalf (x : UInt64) : (lowHalf x).toNat = x.toNat % 2 ^ 32 := by
  rw [lowHalf, UInt64.toNat_and]
  exact Nat.and_two_pow_sub_one_eq_mod x.toNat 32

/-- The value of the high half. -/
theorem toNat_highHalf (x : UInt64) : (highHalf x).toNat = x.toNat / 2 ^ 32 := by
  rw [highHalf, UInt64.toNat_shiftRight]
  exact Nat.shiftRight_eq_div_pow x.toNat 32

/-- The product of two words from the products of their low halves, of their high halves and
of the sums of their halves. -/
def karatsuba (a b : UInt64) : Nat :=
  let low := (lowHalf a * lowHalf b).toNat
  let high := (highHalf a * highHalf b).toNat
  let cross := (lowHalf a + highHalf a).toNat * (lowHalf b + highHalf b).toNat
  high <<< 64 + (cross - high - low) <<< 32 + low

/-! ### Exactness -/

/-- The low half is below `2 ^ 32`. -/
theorem toNat_lowHalf_lt (x : UInt64) : (lowHalf x).toNat < 2 ^ 32 := by
  rw [toNat_lowHalf]
  exact Nat.mod_lt _ (by decide)

/-- The high half is below `2 ^ 32`. -/
theorem toNat_highHalf_lt (x : UInt64) : (highHalf x).toNat < 2 ^ 32 := by
  have := x.toNat_lt
  rw [toNat_highHalf]
  omega

/-- A word is put together from its halves. -/
theorem toNat_eq_halves (x : UInt64) :
    x.toNat = (highHalf x).toNat * 2 ^ 32 + (lowHalf x).toNat := by
  rw [toNat_lowHalf, toNat_highHalf]
  omega

/-- The word product of two halves is their product. -/
theorem toNat_mul_of_halves {x y : UInt64} (hx : x.toNat < 2 ^ 32) (hy : y.toNat < 2 ^ 32) :
    (x * y).toNat = x.toNat * y.toNat := by
  have hle : x.toNat * y.toNat ≤ (2 ^ 32 - 1) * (2 ^ 32 - 1) :=
    Nat.mul_le_mul (by omega) (by omega)
  rw [UInt64.toNat_mul, Nat.mod_eq_of_lt (by omega)]

/-- The word sum of two halves is their sum. -/
theorem toNat_add_of_halves {x y : UInt64} (hx : x.toNat < 2 ^ 32) (hy : y.toNat < 2 ^ 32) :
    (x + y).toNat = x.toNat + y.toNat := by
  rw [UInt64.toNat_add, Nat.mod_eq_of_lt (by omega)]

/-- The three products give the product of the words. -/
theorem karatsuba_eq (a b : UInt64) : karatsuba a b = a.toNat * b.toNat := by
  have ha := toNat_eq_halves a
  have hb := toNat_eq_halves b
  have hal := toNat_lowHalf_lt a
  have hah := toNat_highHalf_lt a
  have hbl := toNat_lowHalf_lt b
  have hbh := toNat_highHalf_lt b
  simp only [karatsuba, toNat_mul_of_halves hal hbl, toNat_mul_of_halves hah hbh,
    toNat_add_of_halves hal hah, toNat_add_of_halves hbl hbh, Nat.shiftLeft_eq]
  rw [ha, hb]
  generalize (lowHalf a).toNat = al
  generalize (highHalf a).toNat = ah
  generalize (lowHalf b).toNat = bl
  generalize (highHalf b).toNat = bh
  have hcross : (al + ah) * (bl + bh) - ah * bh - al * bl = al * bh + ah * bl := by
    simp only [Nat.add_mul, Nat.mul_add]
    omega
  rw [hcross]
  grind

end RnsEngine
