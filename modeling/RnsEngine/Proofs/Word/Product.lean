import Mathlib.Data.Nat.Notation
import RnsEngine.Word.Product

/-!
# The registers of a full product

The product of two words goes through registers of 64 and of 128 digits. Here it is computed on
registers of any kind (`Registers`), with a program for putting a number into a register and one for
the difference of two numbers that are in registers. What does not fit is left to the registers:
those of a machine wrap around (`Registers.wrapping`), and others give up (`Registers.asserting`).

Nothing on the way to a product fails to fit. `HalfProducts` says how large the numbers are, and on
any registers that hold what fits the result is the product (`karatsubaOn_eq`). `karatsuba_exact`
draws together what this says of the two kinds.
-/

namespace RnsEngine

universe u

/-- Registers with any number of digits: a program that puts a number into one, and a program for
the difference of two numbers. -/
structure Registers (m : Type → Type u) where
  hold : ℕ → ℕ → m ℕ
  sub : ℕ → ℕ → ℕ → m ℕ

namespace Registers

/-- Registers that keep the lowest digits of a number, and where a difference wraps around. -/
def wrapping : Registers Id where
  hold digits n := pure (n % 2 ^ digits)
  sub digits a b := pure ((2 ^ digits - b + a) % 2 ^ digits)

/-- Registers that give up on a number that does not fit and on a difference below zero. -/
def asserting : Registers Option where
  hold digits n := if n < 2 ^ digits then some n else none
  sub _ a b := if b ≤ a then some (a - b) else none

variable {m : Type → Type u} [Monad m]

/-- The registers hold what fits, and have the difference of what they hold if it is not below
zero. -/
structure Exact (r : Registers m) : Prop where
  hold : ∀ {digits n}, n < 2 ^ digits → r.hold digits n = pure n
  sub : ∀ {digits a b}, b ≤ a → a < 2 ^ digits → r.sub digits a b = pure (a - b)

/-- Registers that wrap around hold what fits. -/
theorem exact_wrapping : wrapping.Exact where
  hold h := congrArg pure (Nat.mod_eq_of_lt h)
  sub {digits a b} hle hlt := by
    have hsum : 2 ^ digits - b + a = a - b + 2 ^ digits := by omega
    show pure ((2 ^ digits - b + a) % 2 ^ digits) = pure (a - b)
    rw [hsum, Nat.add_mod_right, Nat.mod_eq_of_lt (Nat.lt_of_le_of_lt (a.sub_le b) hlt)]

/-- Registers that give up otherwise hold what fits. -/
theorem exact_asserting : asserting.Exact where
  hold h := if_pos h
  sub hle _ := if_pos hle

end Registers

/-! ### The numbers on the way -/

/-- The numbers on the way to the product of two numbers with given low and high halves. -/
structure HalfProducts (al ah bl bh : ℕ) : Prop where
  low_lt : al * bl < 2 ^ 64
  high_lt : ah * bh < 2 ^ 64
  sum_lt : al + ah < 2 ^ 33
  sum_lt' : bl + bh < 2 ^ 33
  cross_lt : (al + ah) * (bl + bh) < 2 ^ 66
  high_le : ah * bh ≤ (al + ah) * (bl + bh)
  low_le : al * bl ≤ (al + ah) * (bl + bh) - ah * bh
  middle_eq : (al + ah) * (bl + bh) - ah * bh - al * bl = al * bh + ah * bl
  middle_lt : (al + ah) * (bl + bh) - ah * bh - al * bl < 2 ^ 65
  joined_eq : (ah * bh) <<< 64 + ((al + ah) * (bl + bh) - ah * bh - al * bl) <<< 32 + al * bl =
    (ah * 2 ^ 32 + al) * (bh * 2 ^ 32 + bl)
  joined_lt : (ah * bh) <<< 64 + ((al + ah) * (bl + bh) - ah * bh - al * bl) <<< 32 + al * bl <
    2 ^ 128

/-- A product has no more digits than its factors have together. -/
theorem mul_lt_two_pow_add {x y m n : ℕ} (hx : x < 2 ^ m) (hy : y < 2 ^ n) :
    x * y < 2 ^ (m + n) :=
  Nat.pow_add 2 m n ▸ Nat.mul_lt_mul'' hx hy

/-- The product of the sums of two halves has the products of the halves as its parts. -/
theorem cross_eq (al ah bl bh : ℕ) :
    (al + ah) * (bl + bh) = ah * bh + (al * bl + (al * bh + ah * bl)) := by
  grind

/-- The numbers on the way to a product of numbers with halves of 32 digits. -/
theorem halfProducts {al ah bl bh : ℕ} (hal : al < 2 ^ 32) (hah : ah < 2 ^ 32) (hbl : bl < 2 ^ 32)
    (hbh : bh < 2 ^ 32) : HalfProducts al ah bl bh := by
  have hproduct : ∀ {x y : ℕ}, x < 2 ^ 32 → y < 2 ^ 32 → x * y < 2 ^ 64 := mul_lt_two_pow_add
  have hcross := cross_eq al ah bl bh
  have hmiddle : (al + ah) * (bl + bh) - ah * bh - al * bl = al * bh + ah * bl := by omega
  have hjoined : (ah * bh) <<< 64 + ((al + ah) * (bl + bh) - ah * bh - al * bl) <<< 32 + al * bl =
      (ah * 2 ^ 32 + al) * (bh * 2 ^ 32 + bl) := by
    rw [hmiddle, Nat.shiftLeft_eq, Nat.shiftLeft_eq]
    grind
  have hsum : ∀ {x y : ℕ}, x < 2 ^ 32 → y < 2 ^ 32 → x + y < 2 ^ 33 := by omega
  have hword : ∀ {x y : ℕ}, x < 2 ^ 32 → y < 2 ^ 32 → y * 2 ^ 32 + x < 2 ^ 64 := by omega
  exact
    { low_lt := hproduct hal hbl
      high_lt := hproduct hah hbh
      sum_lt := hsum hal hah
      sum_lt' := hsum hbl hbh
      cross_lt := mul_lt_two_pow_add (hsum hal hah) (hsum hbl hbh)
      high_le := by omega
      low_le := by omega
      middle_eq := hmiddle
      middle_lt := by
        have := hproduct hal hbh
        have := hproduct hah hbl
        omega
      joined_eq := hjoined
      joined_lt := hjoined ▸ mul_lt_two_pow_add (hword hal hah) (hword hbl hbh) }

/-! ### The product on registers -/

section Runs

variable {m : Type → Type u} [Monad m]

/-- The product of two words, with every number on the way in its register. -/
def karatsubaOn (r : Registers m) (a b : UInt64) : m ℕ := do
  let low ← r.hold 64 ((lowHalf a).toNat * (lowHalf b).toNat)
  let high ← r.hold 64 ((highHalf a).toNat * (highHalf b).toNat)
  let left ← r.hold 64 ((lowHalf a).toNat + (highHalf a).toNat)
  let right ← r.hold 64 ((lowHalf b).toNat + (highHalf b).toNat)
  let cross ← r.hold 128 (left * right)
  let rest ← r.sub 128 cross high
  let middle ← r.sub 128 rest low
  let top ← r.hold 128 (high <<< 64)
  let between ← r.hold 128 (middle <<< 32)
  let upper ← r.hold 128 (top + between)
  r.hold 128 (upper + low)

/-- The numbers on the way to the product of two words. -/
theorem halfProducts_of_words (a b : UInt64) :
    HalfProducts (lowHalf a).toNat (highHalf a).toNat (lowHalf b).toNat (highHalf b).toNat :=
  halfProducts (toNat_lowHalf_lt a) (toNat_highHalf_lt a) (toNat_lowHalf_lt b)
    (toNat_highHalf_lt b)

/-- On registers that hold what fits the result is the product. -/
theorem karatsubaOn_eq [LawfulMonad m] {r : Registers m} (hr : r.Exact) (a b : UInt64) :
    karatsubaOn r a b = pure (a.toNat * b.toNat) := by
  have h := halfProducts_of_words a b
  have hsum := Nat.lt_trans h.sum_lt (show 2 ^ 33 < 2 ^ 64 by decide)
  have hsum' := Nat.lt_trans h.sum_lt' (show 2 ^ 33 < 2 ^ 64 by decide)
  have hcross := Nat.lt_trans h.cross_lt (show 2 ^ 66 < 2 ^ 128 by decide)
  have hrest := Nat.lt_of_le_of_lt (Nat.sub_le _ ((highHalf a).toNat * (highHalf b).toNat)) hcross
  -- the parts of the sum are no greater than the sum, which fits
  have hjoined := h.joined_lt
  have hupper := Nat.lt_of_le_of_lt (Nat.le_add_right _ _) hjoined
  have htop := Nat.lt_of_le_of_lt (Nat.le_add_right _ _) hupper
  have hbetween := Nat.lt_of_le_of_lt (Nat.le_add_left _ _) hupper
  rw [toNat_eq_halves a, toNat_eq_halves b, ← h.joined_eq]
  simp only [karatsubaOn, pure_bind, hr.hold h.low_lt, hr.hold h.high_lt, hr.hold hsum,
    hr.hold hsum', hr.hold hcross, hr.sub h.high_le hcross, hr.sub h.low_le hrest, hr.hold htop,
    hr.hold hbetween, hr.hold hupper, hr.hold hjoined]

end Runs

/-- **The full product.** The product from halves is the product of the words. Registers of 64
digits hold the products and the sums of the halves, registers of 128 digits all other numbers, and
no difference on the way is below zero: registers that give up otherwise have this result, and so
have registers that wrap around. -/
theorem karatsuba_exact (a b : UInt64) :
    karatsuba a b = a.toNat * b.toNat ∧
    HalfProducts (lowHalf a).toNat (highHalf a).toNat (lowHalf b).toNat (highHalf b).toNat ∧
    karatsubaOn .asserting a b = some (karatsuba a b) ∧
    karatsubaOn .wrapping a b = pure (karatsuba a b) := by
  have hproduct := karatsuba_eq a b
  refine ⟨hproduct, halfProducts_of_words a b, ?_, ?_⟩
  · rw [hproduct]
    exact karatsubaOn_eq Registers.exact_asserting a b
  · rw [hproduct]
    exact karatsubaOn_eq Registers.exact_wrapping a b

end RnsEngine
