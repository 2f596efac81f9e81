import Mathlib.Data.List.Prime
import Mathlib.NumberTheory.LucasPrimality
import RnsEngine.Prime.Decision
import RnsEngine.Proofs.Fold

/-!
# What is decided prime is prime

`prime_of_isPrime`: a number that `isPrime` accepts is prime. Trial division leaves no divisor up
to the root (`prime_of_byTrial`), and a certificate is Lucas's test with a factorization whose
primes are certified in turn (`prime_of_certified`). The strong test and the search for factors
are not trusted, so nothing is needed of them here: whatever list the search returns, the
certificate multiplies it out.
-/

namespace RnsEngine

namespace Primality

/-! ### Trial division -/

/-- Where no divisor is found, none up to the root is there. -/
theorem not_dvd_of_noDivisorFrom {n : ℕ} : ∀ {fuel d : ℕ}, noDivisorFrom n fuel d = true →
    ∀ m, d ≤ m → m < d + fuel → m * m ≤ n → ¬ m ∣ n := by
  intro fuel
  induction fuel with
  | zero =>
    intro d _ m hdm hm
    omega
  | succ fuel ih =>
    intro d h m hdm hm hroot hdvd
    unfold noDivisorFrom at h
    split at h
    · next hlt => exact absurd (Nat.mul_self_le_mul_self hdm) (by omega)
    · split at h
      · cases h
      · next hmod =>
        rcases Nat.eq_or_lt_of_le hdm with rfl | hlt
        · exact hmod (Nat.mod_eq_zero_of_dvd hdvd)
        · exact ih h m hlt (by omega) hroot hdvd

/-- Trial division accepts only primes. -/
theorem prime_of_byTrial {n : ℕ} (h : byTrial n = true) : n.Prime := by
  simp only [byTrial, Bool.and_eq_true, decide_eq_true_eq] at h
  obtain ⟨hn, hnone⟩ := h
  rw [Nat.prime_def_minFac]
  refine ⟨hn, ?_⟩
  by_contra hne
  -- the least factor of a composite number is at most its root, where no divisor was found
  have hlt : n.minFac < n := lt_of_le_of_ne (Nat.minFac_le (by omega)) hne
  have hprime : ¬ n.Prime := fun hp => hne hp.minFac_eq
  have hroot : n.minFac * n.minFac ≤ n := by
    have hsq := Nat.minFac_sq_le_self (by omega) hprime
    rwa [pow_two] at hsq
  have htwo : 2 ≤ n.minFac := (Nat.minFac_prime (by omega)).two_le
  exact not_dvd_of_noDivisorFrom hnone n.minFac htwo (by omega) hroot n.minFac_dvd

/-! ### Certificates -/

/-- The binary power is the power of residues. -/
@[simp] theorem cast_powMod (b e n : ℕ) : (powMod b e n : ZMod n) = (b : ZMod n) ^ e := by
  have h := view_binaryPower (fun x y => x * y % n) (fun x => (x : ZMod n)) (fun _ => True)
    (fun _ _ _ _ => trivial) (fun x y _ _ => by simp) (1 % n) (b % n) trivial trivial (by simp) e
  rw [ZMod.natCast_mod] at h
  exact h.2

/-- A power is below the modulus. -/
theorem powMod_lt (b e : ℕ) {n : ℕ} (hn : 0 < n) : powMod b e n < n := by
  have h := view_binaryPower (fun x y => x * y % n) (fun _ => (1 : ℕ)) (· < n)
    (fun _ _ _ _ => Nat.mod_lt _ hn) (fun _ _ _ _ => rfl) (1 % n) (b % n) (Nat.mod_lt 1 hn)
    (Nat.mod_lt b hn) rfl e
  exact h.1

/-- A power is one as a number exactly when it is one as a residue. -/
theorem powMod_eq_one_iff {n : ℕ} (hn : 2 ≤ n) (b e : ℕ) :
    powMod b e n = 1 ↔ (b : ZMod n) ^ e = 1 := by
  rw [← cast_powMod]
  constructor
  · intro h
    rw [h, Nat.cast_one]
  · intro h
    rw [← Nat.cast_one, ZMod.natCast_eq_natCast_iff', Nat.mod_eq_of_lt (powMod_lt b e (by omega)),
      Nat.mod_eq_of_lt hn] at h
    exact h

/-- Lucas's test: a number of full order certifies the modulus, given the primes that divide the
number before it. -/
theorem prime_of_hasFullOrder {n b : ℕ} (hn : 2 ≤ n) {parts : List ℕ}
    (hparts : ∀ r, r.Prime → r ∣ n - 1 → r ∈ parts) (h : hasFullOrder n parts b = true) :
    n.Prime := by
  simp only [hasFullOrder, Bool.and_eq_true, decide_eq_true_eq, List.all_eq_true] at h
  obtain ⟨hfull, hproper⟩ := h
  refine lucas_primality n (b : ZMod n) ((powMod_eq_one_iff hn _ _).1 hfull) fun r hr hdvd => ?_
  exact fun hone => hproper r (hparts r hr hdvd) ((powMod_eq_one_iff hn _ _).2 hone)

/-- A certificate is found only for a prime. -/
theorem prime_of_certified : ∀ {fuel n : ℕ}, certified fuel n = true → n.Prime := by
  intro fuel
  induction fuel with
  | zero =>
    intro n h
    simp [certified] at h
  | succ fuel ih =>
    intro n h
    unfold certified at h
    split at h
    · exact prime_of_byTrial h
    · next hbound =>
      have hn : 2 ≤ n := Nat.le_trans (by decide) (Nat.le_of_not_lt hbound)
      simp only [Bool.and_eq_true, decide_eq_true_eq, List.all_eq_true, List.any_eq_true,
        List.mem_eraseDups] at h
      obtain ⟨⟨hproduct, hcertified⟩, b, -, horder⟩ := h
      refine prime_of_hasFullOrder hn (fun r hr hdvd => ?_) horder
      -- a prime that divides the product divides a certified part, and so is that part
      rw [← hproduct, ← List.prod_eq_foldr, hr.prime.dvd_prod_iff] at hdvd
      obtain ⟨part, hmem, hdvd⟩ := hdvd
      rw [List.mem_eraseDups, (Nat.prime_dvd_prime_iff_eq hr (ih (hcertified part hmem))).1 hdvd]
      exact hmem

end Primality

open Primality in
/-- A number that is decided prime is prime. -/
theorem prime_of_isPrime {n : ℕ} (h : isPrime n = true) : n.Prime := by
  unfold isPrime at h
  split at h
  · exact prime_of_byTrial h
  · simp only [Bool.and_eq_true, Bool.or_eq_true] at h
    rcases h.2 with hcertified | htrial
    · exact prime_of_certified hcertified
    · exact prime_of_byTrial htrial

end RnsEngine
