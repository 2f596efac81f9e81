import RnsEngine.Proofs.Channel.Power
import RnsEngine.Proofs.Channel.Unit

/-!
# Powers by repeated squaring

A power is computed by a loop over three registers: what has been collected, a square, and the
digits of the exponent that are left (`PowerLoop`). A turn takes the square in if the lowest digit
is set, squares it, and drops the digit; the loop ends when no digit is left. Each turn keeps the
number that the collected factor and the power of the square with the digits left stand for
(`PowerLoop.turnOn_eq`), and so the loop ends after as many turns as the exponent has digits, with
the power (`PowerLoop.runOn_eq`). It runs on an arithmetic unit, so that this holds as well where
every product asserts that its operands are reduced.

An inverse modulo a prime is such a power. `Channel.pow_inv_exact` says of powers and inverses what
they are, for every word and exponent.
-/

namespace RnsEngine

universe u

/-- The registers of a power in progress. -/
structure PowerLoop where
  collected : UInt64
  square : UInt64
  left : UInt64
deriving DecidableEq

namespace PowerLoop

/-- The registers before the first turn. -/
def start (c : Channel) (x exponent : UInt64) : PowerLoop :=
  { collected := 1 % c.modulus, square := x % c.modulus, left := exponent }

section Runs

variable {m : Type → Type u} [Monad m]

/-- One turn, on an arithmetic unit. -/
def turnOn (unit : ArithmeticUnit m) (r : PowerLoop) : m PowerLoop := do
  let collected ← if r.left &&& 1 = 1 then unit.mul r.collected r.square else pure r.collected
  let square ← unit.mul r.square r.square
  return { collected, square, left := r.left >>> 1 }

/-- The loop, on an arithmetic unit. It is broken off without a result when it has not ended after
so many turns. -/
def runOn (unit : ArithmeticUnit m) (turns : ℕ) (r : PowerLoop) : m (Option UInt64) :=
  if r.left = 0 then pure (some r.collected)
  else match turns with
    | 0 => pure none
    | turns + 1 => turnOn unit r >>= runOn unit turns

end Runs

/-! ### What a turn keeps -/

section Residues

variable (c : Channel)

/-- Both factors are reduced. -/
def Reduced (r : PowerLoop) : Prop := r.collected < c.modulus ∧ r.square < c.modulus

/-- The power that the registers stand for: the collected factor, and the square as often as the
digits say that are left. -/
def value (r : PowerLoop) : ZMod c.modulus.toNat :=
  c.residue r.collected * c.residue r.square ^ r.left.toNat

variable {c}

/-- The lowest digit is set in the odd exponents. -/
theorem and_one_eq_one_iff (e : UInt64) : e &&& 1 = 1 ↔ e.toNat % 2 = 1 := by
  rw [← toNat_and_one, ← UInt64.toNat_inj]
  rfl

/-- A turn on a unit that computes on reduced words has reduced factors again, one digit less, and
the same value. -/
theorem turnOn_eq {m : Type → Type u} [Monad m] [LawfulMonad m] {unit : ArithmeticUnit m}
    (hu : unit.Computes c fun x => x < c.modulus) {r : PowerLoop} (hr : r.Reduced c) :
    ∃ r', turnOn unit r = pure r' ∧ r'.Reduced c ∧ r'.left.toNat = r.left.toNat / 2 ∧
      r'.value c = r.value c := by
  obtain ⟨hcollected, hsquare⟩ := hr
  obtain ⟨hrun, hlt⟩ := hu.mul hsquare hsquare
  have hdigits := Nat.div_add_mod r.left.toNat 2
  have hhalf := toNat_shiftRight_one r.left
  -- the square of the square takes half of the exponent, and what is odd about it is collected
  have hpow : c.residue (c.mul r.square r.square) ^ (r.left.toNat / 2) =
      c.residue r.square ^ (2 * (r.left.toNat / 2)) := by
    rw [c.residue_mul hsquare hsquare, ← pow_two, ← pow_mul]
  by_cases hodd : r.left &&& 1 = 1
  · obtain ⟨hrun', hlt'⟩ := hu.mul hcollected hsquare
    refine ⟨⟨c.mul r.collected r.square, c.mul r.square r.square, r.left >>> 1⟩, ?_, ⟨hlt', hlt⟩,
      hhalf, ?_⟩
    · simp only [turnOn, if_pos hodd, hrun', hrun, pure_bind]
    · rw [(and_one_eq_one_iff r.left).1 hodd] at hdigits
      rw [value, value, hhalf, hpow, c.residue_mul hcollected hsquare, mul_assoc, ← pow_succ',
        hdigits]
  · have heven : r.left.toNat % 2 = 0 :=
      (Nat.mod_two_eq_zero_or_one _).resolve_right (mt (and_one_eq_one_iff r.left).2 hodd)
    refine ⟨⟨r.collected, c.mul r.square r.square, r.left >>> 1⟩, ?_, ⟨hcollected, hlt⟩, hhalf, ?_⟩
    · simp only [turnOn, if_neg hodd, hrun, pure_bind]
    · rw [heven, Nat.add_zero] at hdigits
      rw [value, value, hhalf, hpow, hdigits]

/-- Registers without digits stand for what has been collected. -/
theorem collected_eq {r : PowerLoop} (hr : r.Reduced c) (hleft : r.left = 0) {y : UInt64}
    (hy : y < c.modulus) (hvalue : c.residue y = r.value c) : r.collected = y := by
  rw [value, hleft, UInt64.toNat_zero, pow_zero, mul_one] at hvalue
  exact (c.eq_of_residue hy hr.1 hvalue).symm

/-- Registers with digits left stand for an exponent that is not zero. -/
theorem bitLength_left {r : PowerLoop} (hleft : r.left ≠ 0) :
    bitLength r.left.toNat = bitLength (r.left.toNat / 2) + 1 :=
  bitLength_half fun hzero => hleft (UInt64.toNat_inj.1 hzero)

/-- Without digits left the loop has ended, with the word that the registers stand for. -/
theorem runOn_ended {m : Type → Type u} [Monad m] (unit : ArithmeticUnit m) {r : PowerLoop}
    (hr : r.Reduced c) (hleft : r.left = 0) {y : UInt64} (hy : y < c.modulus)
    (hvalue : c.residue y = r.value c) (turns : ℕ) :
    runOn unit turns r = pure (if bitLength r.left.toNat ≤ turns then some y else none) := by
  have hlength : bitLength r.left.toNat ≤ turns := by
    rw [hleft]
    exact Nat.zero_le _
  rw [if_pos hlength, ← collected_eq hr hleft hy hvalue]
  cases turns <;> rw [runOn, if_pos hleft]

/-- The loop ends after as many turns as there are digits left, with the word that the registers
stand for. -/
theorem runOn_eq {m : Type → Type u} [Monad m] [LawfulMonad m] {unit : ArithmeticUnit m}
    (hu : unit.Computes c fun x => x < c.modulus) {y : UInt64} (hy : y < c.modulus) (turns : ℕ) :
    ∀ {r : PowerLoop}, r.Reduced c → c.residue y = r.value c →
      runOn unit turns r = pure (if bitLength r.left.toNat ≤ turns then some y else none) := by
  -- what is left to turn belongs to the registers, so they are free in the induction
  induction turns with
  | zero =>
    intro r hr hvalue
    by_cases hleft : r.left = 0
    · exact runOn_ended unit hr hleft hy hvalue _
    · have hpos : ¬ bitLength r.left.toNat ≤ 0 := bitLength_left hleft ▸ Nat.not_succ_le_zero _
      rw [runOn, if_neg hleft, if_neg hpos]
  | succ turns ih =>
    intro r hr hvalue
    by_cases hleft : r.left = 0
    · exact runOn_ended unit hr hleft hy hvalue _
    · obtain ⟨r', hturn, hr', hdigits, hkept⟩ := turnOn_eq hu hr
      have hlength : bitLength r.left.toNat ≤ turns + 1 ↔ bitLength r'.left.toNat ≤ turns := by
        rw [bitLength_left hleft, hdigits, Nat.add_le_add_iff_right]
      rw [runOn, if_neg hleft]
      simp only [hturn, pure_bind, hlength]
      exact ih hr' (hkept ▸ hvalue)

/-- The loop from the first turn on computes the power of the channel. -/
theorem runOn_start {m : Type → Type u} [Monad m] [LawfulMonad m] {unit : ArithmeticUnit m}
    (hu : unit.Computes c fun x => x < c.modulus) (x e : UInt64) (turns : ℕ) :
    runOn unit turns (start c x e) =
      pure (if bitLength e.toNat ≤ turns then some (c.pow x e.toNat) else none) := by
  refine runOn_eq hu (c.pow_lt x e.toNat) turns (r := start c x e)
    ⟨c.mod_modulus_lt 1, c.mod_modulus_lt x⟩ ?_
  rw [value, start, c.residue_pow, c.residue_mod, c.residue_mod, c.residue_one, one_mul]

end Residues

end PowerLoop

namespace Channel

variable (c : Channel)

/-! ### Inverses -/

/-- The residue of a word vanishes when the modulus divides it. -/
theorem residue_eq_zero_iff (x : UInt64) : c.residue x = 0 ↔ c.modulus.toNat ∣ x.toNat :=
  ZMod.natCast_eq_zero_iff _ _

/-- The remainder of a word vanishes when the modulus divides it. -/
theorem mod_modulus_eq_zero_iff (x : UInt64) :
    x % c.modulus = 0 ↔ c.modulus.toNat ∣ x.toNat := by
  rw [← UInt64.toNat_inj, UInt64.toNat_mod]
  exact (Nat.dvd_iff_mod_eq_zero).symm

/-- An inverse is refused to the words that the modulus divides, and to no other. -/
theorem inv_eq_error_iff (x : UInt64) (fault : Fault) :
    c.inv x = .error fault ↔
      c.modulus.toNat ∣ x.toNat ∧ fault = .notInvertible 0 c.modulus := by
  rw [← c.mod_modulus_eq_zero_iff, inv]
  constructor
  · intro h
    split at h
    · next hzero => exact ⟨hzero, (Except.error.inj h).symm.trans (by rw [hzero])⟩
    · cases h
  · rintro ⟨hzero, rfl⟩
    rw [hzero, if_pos rfl]

/-- Words whose residues are inverse to each other have a product that leaves one. -/
theorem mul_mod_eq_one {x y : UInt64} (h : c.residue y * c.residue x = 1) :
    x.toNat * y.toNat % c.modulus.toNat = 1 := by
  have hcast : ((x.toNat * y.toNat : ℕ) : ZMod c.modulus.toNat) = (1 : ℕ) := by
    rw [Nat.cast_mul, Nat.cast_one, mul_comm]
    exact h
  rw [(ZMod.natCast_eq_natCast_iff' _ _ _).1 hcast, Nat.mod_eq_of_lt c.two_le_toNat]

/-- Modulo a prime every other word has an inverse. -/
theorem exists_inv_of_not_dvd (hq : c.modulus.toNat.Prime) {x : UInt64}
    (h : ¬ c.modulus.toNat ∣ x.toNat) :
    ∃ y, c.inv x = .ok y ∧ y < c.modulus ∧ x.toNat * y.toNat % c.modulus.toNat = 1 := by
  obtain ⟨y, hinv, hlt, hone⟩ := c.exists_inv hq (mt (c.residue_eq_zero_iff x).1 h)
  exact ⟨y, hinv, hlt, c.mul_mod_eq_one hone⟩

/-- **Powers and inverses.** For every modulus, word and exponent the loop ends after as many turns
as the exponent has digits, at most 64, and no product on the way has an operand that is not
reduced. The result is the remainder of the power, one for the exponent zero. An inverse is refused
exactly to the words that the modulus divides; modulo a prime every other word has one. -/
theorem pow_inv_exact (x : UInt64) :
    (∀ (e : UInt64) (turns : ℕ), PowerLoop.runOn c.asserting turns (.start c x e) =
      some (if bitLength e.toNat ≤ turns then some (c.pow x e.toNat) else none)) ∧
    (∀ e : UInt64, bitLength e.toNat ≤ 64 ∧ c.pow x e.toNat < c.modulus ∧
      (c.pow x e.toNat).toNat = x.toNat ^ e.toNat % c.modulus.toNat) ∧
    c.pow x 0 = 1 ∧
    (∀ fault, c.inv x = .error fault ↔
      c.modulus.toNat ∣ x.toNat ∧ fault = .notInvertible 0 c.modulus) ∧
    (c.modulus.toNat.Prime → ¬ c.modulus.toNat ∣ x.toNat →
      ∃ y, c.inv x = .ok y ∧ y < c.modulus ∧ x.toNat * y.toNat % c.modulus.toNat = 1) := by
  refine ⟨PowerLoop.runOn_start (ArithmeticUnit.computes_asserting c) x,
    fun e => ⟨bitLength_le_of_lt e.toNat_lt, c.pow_lt x _, c.toNat_pow x _⟩, ?_,
    c.inv_eq_error_iff x, fun hq => c.exists_inv_of_not_dvd hq⟩
  rw [← UInt64.toNat_inj, c.toNat_pow, pow_zero, Nat.mod_eq_of_lt c.two_le_toNat]
  rfl

/-- Modulo the two least primes, of the greatest word and the one before it. Three divides the
greatest word. -/
theorem pow_inv_exact_two_three :
    ∃ c d : Channel, c.modulus = 2 ∧ d.modulus = 3 ∧
      PowerLoop.runOn d.asserting 64 (.start d 2 0xFFFFFFFFFFFFFFFF) = some (some 2) ∧
      (∃ y, c.inv 0xFFFFFFFFFFFFFFFF = .ok y ∧ y < 2 ∧ 0xFFFFFFFFFFFFFFFF * y.toNat % 2 = 1) ∧
      d.inv 0xFFFFFFFFFFFFFFFF = .error (.notInvertible 0 3) ∧
      ∃ y, d.inv 0xFFFFFFFFFFFFFFFE = .ok y ∧ y < 3 ∧ 0xFFFFFFFFFFFFFFFE * y.toNat % 3 = 1 := by
  let c : Channel := ⟨2, Barrett.ofModulus 2, by decide, by decide, rfl⟩
  let d : Channel := ⟨3, Barrett.ofModulus 3, by decide, by decide, rfl⟩
  obtain ⟨-, -, -, -, hc⟩ := pow_inv_exact c 0xFFFFFFFFFFFFFFFF
  obtain ⟨-, -, -, hrefused, -⟩ := pow_inv_exact d 0xFFFFFFFFFFFFFFFF
  obtain ⟨-, -, -, -, hd⟩ := pow_inv_exact d 0xFFFFFFFFFFFFFFFE
  obtain ⟨hrun, -⟩ := pow_inv_exact d 2
  refine ⟨c, d, rfl, rfl, (hrun _ _).trans (by decide +kernel), hc Nat.prime_two (by decide),
    (hrefused _).2 ⟨by decide, rfl⟩, hd Nat.prime_three (by decide)⟩

end Channel

end RnsEngine
