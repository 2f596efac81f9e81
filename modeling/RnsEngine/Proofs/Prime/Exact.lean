import Mathlib.FieldTheory.Finite.Basic
import RnsEngine.Proofs.Prime.Decision

/-!
# What is prime is decided prime

Primality is decided exactly: `isPrime_iff`. That no composite number is accepted is
`prime_of_isPrime`. No prime is refused either: trial division meets no divisor of it
(`byTrial_of_prime`), and it passes the strong test with every base that it does not divide
(`passes_of_prime`), since one has no square roots modulo a prime but itself and minus one. Whether
a certificate is found for it does not matter, for trial division has the last word.
-/

namespace RnsEngine

namespace Primality

/-! ### Trial division -/

/-- A prime has no divisor from two up to its root. -/
theorem noDivisorFrom_of_prime {n : ℕ} (hn : n.Prime) :
    ∀ fuel d, 2 ≤ d → noDivisorFrom n fuel d = true := by
  intro fuel
  induction fuel with
  | zero => exact fun _ _ => rfl
  | succ fuel ih =>
    intro d hd
    rw [noDivisorFrom]
    split
    · rfl
    next hroot =>
    have hmod : n % d ≠ 0 := by
      intro hmod
      have hdvd := Nat.dvd_of_mod_eq_zero hmod
      obtain rfl := (Nat.dvd_prime_two_le hn hd).1 hdvd
      exact hroot (Nat.lt_mul_self_iff.2 hn.one_lt)
    rw [if_neg hmod]
    exact ih (d + 1) (Nat.le_succ_of_le hd)

/-- Trial division accepts every prime. -/
theorem byTrial_of_prime {n : ℕ} (hn : n.Prime) : byTrial n = true := by
  rw [byTrial, decide_eq_true hn.two_le, noDivisorFrom_of_prime hn n 2 (Nat.le_refl 2)]
  rfl

/-! ### The strong test -/

/-- A number is a power of two times what is left when twos are taken out. -/
theorem two_pow_mul_splitTwos (fuel n : ℕ) :
    2 ^ (splitTwos fuel n).1 * (splitTwos fuel n).2 = n := by
  induction fuel generalizing n with
  | zero => exact Nat.one_mul n
  | succ fuel ih =>
    rw [splitTwos]
    split
    next heven =>
      rw [Nat.pow_succ', Nat.mul_assoc, ih, Nat.mul_div_cancel' (Nat.dvd_of_mod_eq_zero heven)]
    next => exact Nat.one_mul n

/-- A reduced number is one when its residue is. -/
theorem eq_one_of_cast_eq_one {n x : ℕ} (hn : 1 < n) (hx : x < n) (h : (x : ZMod n) = 1) :
    x = 1 := by
  rw [← Nat.cast_one, ZMod.natCast_eq_natCast_iff', Nat.mod_eq_of_lt hx, Nat.mod_eq_of_lt hn] at h
  exact h

/-- A reduced number is the last one when its residue is minus one. -/
theorem eq_pred_of_cast_eq_neg_one {n x : ℕ} (hx : x < n) (h : (x : ZMod n) = -1) :
    x = n - 1 := by
  have hzero : ((x + 1 : ℕ) : ZMod n) = 0 := by rw [Nat.cast_succ, h, neg_add_cancel]
  have hle := Nat.le_of_dvd x.succ_pos ((ZMod.natCast_eq_zero_iff _ _).1 hzero)
  omega

/-- Where repeated squaring modulo a prime ends at one, it has started there or it passes minus
one. -/
theorem reachesMinusOne_of_prime {n : ℕ} (hn : n.Prime) (count : ℕ) :
    ∀ x < n, (x : ZMod n) ^ 2 ^ count = 1 → x = 1 ∨ reachesMinusOne n count x = true := by
  have := Fact.mk hn
  induction count with
  | zero =>
    intro x hx hone
    rw [pow_zero, pow_one] at hone
    exact .inl (eq_one_of_cast_eq_one hn.one_lt hx hone)
  | succ count ih =>
    intro x hx hone
    have hsq : ((x * x % n : ℕ) : ZMod n) ^ 2 ^ count = 1 := by
      rw [ZMod.natCast_mod, Nat.cast_mul, ← pow_two, ← pow_mul, ← Nat.pow_succ', hone]
    rw [reachesMinusOne, Bool.or_eq_true, decide_eq_true_eq]
    rcases ih (x * x % n) (Nat.mod_lt _ hn.pos) hsq with hsq | hreaches
    · -- the square is one, and one has only two roots
      have hroot : (x : ZMod n) * x = 1 := by
        rw [← Nat.cast_mul, ← ZMod.natCast_mod, hsq, Nat.cast_one]
      rcases mul_self_eq_one_iff.1 hroot with h | h
      · exact .inl (eq_one_of_cast_eq_one hn.one_lt hx h)
      · exact .inr (.inl (eq_pred_of_cast_eq_neg_one hx h))
    · exact .inr (.inr hreaches)

/-- A prime passes the strong test with every base that it does not divide. -/
theorem passes_of_prime {n b : ℕ} (hn : n.Prime) (hb : ¬ n ∣ b) : passes n b = true := by
  have := Fact.mk hn
  have hsplit := two_pow_mul_splitTwos (bitLength n) (n - 1)
  let odd := (splitTwos (bitLength n) (n - 1)).2
  have hfermat : (b : ZMod n) ^ (n - 1) = 1 :=
    ZMod.pow_card_sub_one_eq_one fun h => hb ((ZMod.natCast_eq_zero_iff _ _).1 h)
  have hlast : (powMod b odd n : ZMod n) ^ 2 ^ (splitTwos (bitLength n) (n - 1)).1 = 1 := by
    rw [cast_powMod, ← pow_mul, Nat.mul_comm, hsplit, hfermat]
  have hreaches := reachesMinusOne_of_prime hn _ _ (powMod_lt b odd hn.pos) hlast
  rw [passes, Bool.or_eq_true, decide_eq_true_eq]
  exact hreaches

end Primality

open Primality in
/-- **Primality is decided exactly.** -/
theorem isPrime_iff {n : ℕ} : isPrime n = true ↔ n.Prime := by
  refine ⟨prime_of_isPrime, fun hn => ?_⟩
  rw [isPrime]
  split
  next => exact byTrial_of_prime hn
  next hlarge =>
    -- the bases are far below a number that is not tried by division alone
    have hbase : ∀ b ∈ bases, ¬ n ∣ b := by
      intro b hb hdvd
      have hsmall : ∀ b ∈ bases, 0 < b ∧ b < trialBound := by decide
      obtain ⟨hpos, hlt⟩ := hsmall b hb
      exact hlarge (Nat.lt_of_le_of_lt (Nat.le_of_dvd hpos hdvd) hlt)
    have hmod : ∀ b ∈ bases, n % b ≠ 0 := by
      intro b hb hmod
      have htwo : ∀ b ∈ bases, 2 ≤ b := by decide
      have heq := (Nat.dvd_prime_two_le hn (htwo b hb)).1 (Nat.dvd_of_mod_eq_zero hmod)
      exact hbase b hb (dvd_of_eq heq.symm)
    simp only [Bool.and_eq_true, Bool.or_eq_true, List.all_eq_true, decide_eq_true_eq]
    exact ⟨⟨hmod, fun b hb => passes_of_prime hn (hbase b hb)⟩, .inr (byTrial_of_prime hn)⟩

end RnsEngine
