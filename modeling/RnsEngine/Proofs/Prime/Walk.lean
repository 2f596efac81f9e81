import Mathlib.Data.Nat.ModEq
import Mathlib.Logic.Relation
import RnsEngine.Prime.Walk
import RnsEngine.Proofs.Prime.Exact

/-!
# Turns of a prime walk

A walk looks for primes in two directions, one candidate after the other. The primes of an interval
that it is after are `primesIn`; from a number that is congruent to one the next that may be listed
is a step away (`primesIn_of_low`, `primesIn_of_high`).

Each turn of a search passes a candidate or closes its direction (`Turn`). What is known of the
counters is `Sound`: turns keep it (`Sound.turn`, `Sound.reaches`), and it leaves a counter no room
to wrap around. With `left`, the primes that are left in a direction, the outcome of a search is
that it takes the first of them: `took_next`.
-/

namespace RnsEngine

/-! ### Primes of an interval -/

/-- The primes of an interval that are congruent to one, in increasing order. -/
def primesIn (order low high : ℕ) : List ℕ :=
  (List.range' low (high + 1 - low)).filter fun p => p.Prime ∧ p ≡ 1 [MOD order]

section Interval

variable {order low high : ℕ}

/-- Which numbers are listed. -/
theorem mem_primesIn {p : ℕ} :
    p ∈ primesIn order low high ↔ (low ≤ p ∧ p ≤ high) ∧ p.Prime ∧ p ≡ 1 [MOD order] := by
  have hrange : p ∈ List.range' low (high + 1 - low) ↔ low ≤ p ∧ p ≤ high := by
    rw [List.mem_range'_1]
    omega
  rw [primesIn, List.mem_filter, hrange, decide_eq_true_eq]

/-- The list is increasing. -/
theorem pairwise_primesIn : (primesIn order low high).Pairwise (· < ·) :=
  (List.pairwise_lt_range' 1).filter _

/-- An empty interval has no primes. -/
theorem primesIn_eq_nil (h : high < low) : primesIn order low high = [] := by
  rw [primesIn, Nat.sub_eq_zero_of_le h]
  rfl

/-- From a number congruent to one, the next that may be listed is a step further up. -/
theorem primesIn_of_low (hlow : low ≡ 1 [MOD order]) (horder : 0 < order) (hle : low ≤ high) :
    primesIn order low high =
      (if low.Prime then [low] else []) ++ primesIn order (low + order) high := by
  have hmem : ∀ p, p ∈ primesIn order low high ↔
      p ∈ (if low.Prime then [low] else []) ++ primesIn order (low + order) high := by
    intro p
    rw [List.mem_append, mem_primesIn, mem_primesIn]
    constructor
    · rintro ⟨⟨hge, hp⟩, hprime, hmod⟩
      rcases Nat.eq_or_lt_of_le hge with rfl | hlt
      · exact .inl (by simp [hprime])
      · exact .inr ⟨⟨(hlow.trans hmod.symm).add_le_of_lt hlt, hp⟩, hprime, hmod⟩
    · rintro (h | ⟨⟨hge, hp⟩, hrest⟩)
      · split at h
        next hprime =>
          obtain rfl := List.mem_singleton.1 h
          exact ⟨⟨Nat.le_refl _, hle⟩, hprime, hlow⟩
        next => cases h
      · exact ⟨⟨Nat.le_trans (Nat.le_add_right _ _) hge, hp⟩, hrest⟩
  refine pairwise_primesIn.eq_of_mem_iff ?_ hmem
  split
  · refine List.pairwise_cons.2 ⟨fun p hp => ?_, pairwise_primesIn⟩
    have := (mem_primesIn.1 hp).1.1
    omega
  · exact pairwise_primesIn

/-- From a number congruent to one, the next that may be listed is a step further down. -/
theorem primesIn_of_high (hhigh : high ≡ 1 [MOD order]) (horder : 0 < order) (hle : low ≤ high) :
    primesIn order low high =
      primesIn order low (high - order) ++ if high.Prime then [high] else [] := by
  have hmem : ∀ p, p ∈ primesIn order low high ↔
      p ∈ primesIn order low (high - order) ++ if high.Prime then [high] else [] := by
    intro p
    rw [List.mem_append, mem_primesIn, mem_primesIn]
    constructor
    · rintro ⟨⟨hge, hp⟩, hprime, hmod⟩
      rcases Nat.eq_or_lt_of_le hp with rfl | hlt
      · exact .inr (by simp [hprime])
      · have hstep := (hmod.trans hhigh.symm).add_le_of_lt hlt
        exact .inl ⟨⟨hge, Nat.le_sub_of_add_le hstep⟩, hprime, hmod⟩
    · rintro (⟨⟨hge, hp⟩, hrest⟩ | h)
      · exact ⟨⟨hge, Nat.le_trans hp (Nat.sub_le _ _)⟩, hrest⟩
      · split at h
        next hprime =>
          obtain rfl := List.mem_singleton.1 h
          exact ⟨⟨hle, Nat.le_refl _⟩, hprime, hhigh⟩
        next => cases h
  refine pairwise_primesIn.eq_of_mem_iff (List.pairwise_append.2 ⟨pairwise_primesIn, ?_, ?_⟩) hmem
  · split <;> simp
  · intro p hp x hx
    obtain ⟨⟨-, hle⟩, hprime, -⟩ := mem_primesIn.1 hp
    have hpos := hprime.pos
    split at hx
    · obtain rfl := List.mem_singleton.1 hx
      omega
    · cases hx

end Interval

namespace PrimeWalk

/-! ### Parameters -/

/-- The parameters that a walk is started with: the interval downwards starts at a multiple of the
order. -/
structure Admissible (bits order : ℕ) : Prop where
  bits_pos : 0 < bits
  bits_le : bits ≤ maxBits
  order_pos : 0 < order
  order_dvd : order ∣ 2 ^ (bits - 1)

namespace Admissible

variable {bits order : ℕ}

/-- The power in the middle is twice the one where the walk downwards ends. -/
theorem two_pow_eq (h : Admissible bits order) : 2 ^ bits = 2 * 2 ^ (bits - 1) := by
  rw [← Nat.pow_succ', Nat.succ_eq_add_one, Nat.sub_add_cancel h.bits_pos]

/-- The order is at most half the power in the middle. -/
theorem order_le (h : Admissible bits order) : order ≤ 2 ^ (bits - 1) :=
  Nat.le_of_dvd (Nat.two_pow_pos _) h.order_dvd

/-- The word of the middle. -/
theorem two_pow_le (h : Admissible bits order) : 2 ^ (bits - 1) ≤ 2 ^ 60 :=
  Nat.pow_le_pow_right Nat.two_pos (by
    have hle : bits ≤ 61 := h.bits_le
    omega)

/-- The first candidate upwards is congruent to one. -/
theorem two_pow_add_one_modEq (h : Admissible bits order) : 2 ^ bits + 1 ≡ 1 [MOD order] := by
  have hdvd : order ∣ 2 ^ bits := h.two_pow_eq ▸ h.order_dvd.mul_left 2
  exact ((Nat.modEq_zero_iff_dvd.2 hdvd).add_right 1).trans (by rw [Nat.zero_add])

end Admissible

/-- The word of a power of two. -/
theorem toNat_powerOfTwo {bits : ℕ} (h : bits ≤ maxBits) : (powerOfTwo bits).toNat = 2 ^ bits :=
  toNat_one_shiftLeft (Nat.lt_of_le_of_lt h (by decide))

/-- What a walk is started with, and where it stands then. -/
theorem start_eq_ok {bits : ℕ} {order : UInt64} {w : PrimeWalk} (h : start bits order = .ok w) :
    Admissible bits order.toNat ∧ w =
      { bits, order, above := powerOfTwo bits + 1, below := powerOfTwo bits + 1 - order,
        aboveOpen := true, belowOpen := true } := by
  unfold start at h
  split at h
  · cases h
  next hcheck =>
  split at h
  · cases h
  next hsize =>
  obtain ⟨log, hpower⟩ : order.toNat.isPowerOfTwo :=
    not_not.1 fun hnot => hcheck (and_pred_check_iff.2 hnot)
  obtain ⟨hbits, hlt⟩ := not_or.1 hsize
  have hbits : bits ≤ maxBits := Nat.le_of_not_lt hbits
  have hlog : log < bits := by
    have hlt := UInt64.lt_iff_toNat_lt.1 (UInt64.not_le.1 hlt)
    rw [toNat_powerOfTwo hbits, hpower] at hlt
    exact (Nat.pow_lt_pow_iff_right (by decide)).1 hlt
  have hpos : 0 < order.toNat := hpower ▸ Nat.two_pow_pos log
  refine ⟨⟨Nat.zero_lt_of_lt hlog, hbits, hpos, ?_⟩, (Except.ok.inj h).symm⟩
  rw [hpower]
  exact Nat.pow_dvd_pow 2 (Nat.le_sub_one_of_lt hlog)

/-! ### Turns -/

/-- One turn of a loop: an open direction passes its next candidate, or it has left its interval
and is closed. -/
inductive Turn (w : PrimeWalk) : PrimeWalk → Prop
  | passAbove (hopen : w.aboveOpen = true) (hle : w.above ≤ w.highest) :
    Turn w { w with above := w.above + w.order }
  | closeAbove (hopen : w.aboveOpen = true) (hlt : w.highest < w.above) :
    Turn w { w with aboveOpen := false }
  | passBelow (hopen : w.belowOpen = true) (hle : w.lowest ≤ w.below) :
    Turn w { w with below := w.below - w.order }
  | closeBelow (hopen : w.belowOpen = true) (hlt : w.below < w.lowest) :
    Turn w { w with belowOpen := false }

/-- A walk comes to another by turns. -/
abbrev Reaches : PrimeWalk → PrimeWalk → Prop := Relation.ReflTransGen Turn

/-- Both counters stand on candidates, at most one step past the interval, and a closed direction
has left its interval. -/
structure Sound (bits order : ℕ) (w : PrimeWalk) : Prop where
  bits_eq : w.bits = bits
  order_eq : w.order.toNat = order
  above_modEq : w.above.toNat ≡ 1 [MOD order]
  below_modEq : w.below.toNat ≡ 1 [MOD order]
  lt_above : 2 ^ bits < w.above.toNat
  above_le : w.above.toNat ≤ 2 ^ bits + 2 ^ (bits - 1) + order
  below_le : w.below.toNat ≤ 2 ^ bits
  of_closed_above : w.aboveOpen = false → 2 ^ bits + 2 ^ (bits - 1) < w.above.toNat
  of_closed_below : w.belowOpen = false → w.below.toNat < 2 ^ (bits - 1)

namespace Sound

variable {bits order : ℕ} {w : PrimeWalk}

/-- The end of the interval upwards. -/
theorem toNat_highest (ha : Admissible bits order) (h : Sound bits order w) :
    w.highest.toNat = 2 ^ bits + 2 ^ (bits - 1) := by
  have hpred : bits - 1 ≤ maxBits := Nat.le_trans (Nat.sub_le _ _) ha.bits_le
  have htwo := ha.two_pow_eq
  have hle := ha.two_pow_le
  rw [highest, h.bits_eq, UInt64.toNat_add, toNat_powerOfTwo ha.bits_le, toNat_powerOfTwo hpred,
    Nat.mod_eq_of_lt (by omega)]

/-- The end of the interval downwards. -/
theorem toNat_lowest (ha : Admissible bits order) (h : Sound bits order w) :
    w.lowest.toNat = 2 ^ (bits - 1) := by
  rw [lowest, h.bits_eq, toNat_powerOfTwo (Nat.le_trans (Nat.sub_le _ _) ha.bits_le)]

/-- A candidate upwards is passed without wrapping around. -/
theorem toNat_above_add (ha : Admissible bits order) (h : Sound bits order w)
    (hle : w.above ≤ w.highest) : (w.above + w.order).toNat = w.above.toNat + order := by
  have hle := h.toNat_highest ha ▸ UInt64.le_iff_toNat_le.1 hle
  have htwo := ha.two_pow_eq
  have hpow := ha.two_pow_le
  have horder := ha.order_le
  rw [UInt64.toNat_add, h.order_eq, Nat.mod_eq_of_lt (by omega)]

/-- A candidate downwards is at least the order. -/
theorem order_le_below (ha : Admissible bits order) (h : Sound bits order w)
    (hle : w.lowest ≤ w.below) : w.order ≤ w.below := by
  have hle := h.toNat_lowest ha ▸ UInt64.le_iff_toNat_le.1 hle
  rw [UInt64.le_iff_toNat_le, h.order_eq]
  exact Nat.le_trans ha.order_le hle

/-- A candidate downwards is passed without an underflow. -/
theorem toNat_below_sub (ha : Admissible bits order) (h : Sound bits order w)
    (hle : w.lowest ≤ w.below) : (w.below - w.order).toNat = w.below.toNat - order := by
  rw [UInt64.toNat_sub_of_le _ _ (h.order_le_below ha hle), h.order_eq]

/-- **One turn** keeps a walk sound. -/
theorem turn (ha : Admissible bits order) (h : Sound bits order w) {w' : PrimeWalk}
    (hturn : Turn w w') : Sound bits order w' := by
  cases hturn with
  | passAbove hopen hle =>
    have hadd := h.toNat_above_add ha hle
    have hhigh := h.toNat_highest ha ▸ UInt64.le_iff_toNat_le.1 hle
    exact { h with
      above_modEq := hadd ▸ Nat.add_modEq_right.trans h.above_modEq
      lt_above := hadd ▸ Nat.lt_add_right _ h.lt_above
      above_le := hadd ▸ Nat.add_le_add_right hhigh _
      of_closed_above := fun hclosed => by simp [hopen] at hclosed }
  | closeAbove hopen hlt =>
    have hhigh := h.toNat_highest ha ▸ UInt64.lt_iff_toNat_lt.1 hlt
    exact { h with of_closed_above := fun _ => hhigh }
  | passBelow hopen hle =>
    have hsub := h.toNat_below_sub ha hle
    have horder := h.order_eq ▸ UInt64.le_iff_toNat_le.1 (h.order_le_below ha hle)
    exact { h with
      below_modEq := hsub ▸ (Nat.add_modEq_right.symm.trans
        (by rw [Nat.sub_add_cancel horder]; exact h.below_modEq))
      below_le := hsub ▸ Nat.le_trans (Nat.sub_le _ _) h.below_le
      of_closed_below := fun hclosed => by simp [hopen] at hclosed }
  | closeBelow hopen hlt =>
    have hlow := h.toNat_lowest ha ▸ UInt64.lt_iff_toNat_lt.1 hlt
    exact { h with of_closed_below := fun _ => hlow }

/-- Turns keep a walk sound. -/
theorem reaches (ha : Admissible bits order) (h : Sound bits order w) {w' : PrimeWalk}
    (hreaches : Reaches w w') : Sound bits order w' := by
  induction hreaches with
  | refl => exact h
  | tail _ hturn ih => exact ih.turn ha hturn

end Sound

/-! ### What is left -/

/-- The primes that are left in a direction, in the order in which it meets them. -/
def left (w : PrimeWalk) : Bool → List ℕ
  | true => primesIn w.order.toNat w.above.toNat w.highest.toNat
  | false => (primesIn w.order.toNat w.lowest.toNat w.below.toNat).reverse

/-- A search in a direction has taken the first prime that was left there, if there was one, and has
left the other direction alone. -/
structure Took (upward : Bool) (w : PrimeWalk) (r : Option UInt64 × PrimeWalk) : Prop where
  reaches : Reaches w r.2
  left_eq : w.left upward = (r.1.map UInt64.toNat).toList ++ r.2.left upward
  of_none : r.1 = none → w.left upward = []
  other_eq : r.2.left (!upward) = w.left (!upward)

/-- Turns that take no prime may come before. -/
theorem Took.trans {upward : Bool} {w v : PrimeWalk} {r : Option UInt64 × PrimeWalk}
    (h : Took upward v r) (hreaches : Reaches w v) (hleft : w.left upward = v.left upward)
    (hother : v.left (!upward) = w.left (!upward)) : Took upward w r where
  reaches := hreaches.trans h.reaches
  left_eq := hleft.trans h.left_eq
  of_none hnone := hleft.trans (h.of_none hnone)
  other_eq := h.other_eq.trans hother

section Search

variable {bits order : ℕ}

/-- The search upwards takes the next prime; it has fuel for every candidate that is left. -/
theorem took_climb (ha : Admissible bits order) (fuel : ℕ) :
    ∀ w : PrimeWalk, Sound bits order w → w.aboveOpen = true →
      w.highest.toNat + 1 - w.above.toNat < fuel → Took true w (climb fuel w) := by
  induction fuel with
  | zero => exact fun _ _ _ hfuel => absurd hfuel (Nat.not_lt_zero _)
  | succ fuel ih =>
    intro w h hopen hfuel
    rw [climb]
    split
    next hlt =>
      have hnil : w.left true = [] := primesIn_eq_nil (UInt64.lt_iff_toNat_lt.1 hlt)
      exact ⟨.single (.closeAbove hopen hlt), hnil.trans hnil.symm, fun _ => hnil, rfl⟩
    next hle =>
      have hle := UInt64.not_lt.1 hle
      have hadd := h.toNat_above_add ha hle
      let passed : PrimeWalk := { w with above := w.above + w.order }
      have hturn : Turn w passed := .passAbove hopen hle
      have hleft : w.left true =
          (if w.above.toNat.Prime then [w.above.toNat] else []) ++ passed.left true := by
        have hstep := primesIn_of_low h.above_modEq ha.order_pos (UInt64.le_iff_toNat_le.1 hle)
        rw [← hadd, ← h.order_eq] at hstep
        exact hstep
      split
      next hprime =>
        rw [if_pos (isPrime_iff.1 hprime)] at hleft
        exact ⟨.single hturn, hleft, fun hnone => absurd hnone (Option.some_ne_none _), rfl⟩
      next hprime =>
        rw [if_neg (mt isPrime_iff.2 hprime)] at hleft
        have hpos := ha.order_pos
        have hle := UInt64.le_iff_toNat_le.1 hle
        refine (ih passed (h.turn ha hturn) hopen ?_).trans (.single hturn) hleft rfl
        show w.highest.toNat + 1 - (w.above + w.order).toNat < fuel
        omega

/-- The search downwards takes the next prime; it has fuel for every candidate that is left. -/
theorem took_descend (ha : Admissible bits order) (fuel : ℕ) :
    ∀ w : PrimeWalk, Sound bits order w → w.belowOpen = true →
      w.below.toNat + 1 - w.lowest.toNat < fuel → Took false w (descend fuel w) := by
  induction fuel with
  | zero => exact fun _ _ _ hfuel => absurd hfuel (Nat.not_lt_zero _)
  | succ fuel ih =>
    intro w h hopen hfuel
    rw [descend]
    split
    next hlt =>
      have hnil : w.left false = [] :=
        congrArg List.reverse (primesIn_eq_nil (UInt64.lt_iff_toNat_lt.1 hlt))
      exact ⟨.single (.closeBelow hopen hlt), hnil.trans hnil.symm, fun _ => hnil, rfl⟩
    next hle =>
      have hle := UInt64.not_lt.1 hle
      have hsub := h.toNat_below_sub ha hle
      let passed : PrimeWalk := { w with below := w.below - w.order }
      have hturn : Turn w passed := .passBelow hopen hle
      have hleft : w.left false =
          (if w.below.toNat.Prime then [w.below.toNat] else []) ++ passed.left false := by
        have hstep := primesIn_of_high h.below_modEq ha.order_pos (UInt64.le_iff_toNat_le.1 hle)
        rw [← hsub, ← h.order_eq] at hstep
        rw [left, hstep, List.reverse_append]
        split <;> rfl
      split
      next hprime =>
        rw [if_pos (isPrime_iff.1 hprime)] at hleft
        exact ⟨.single hturn, hleft, fun hnone => absurd hnone (Option.some_ne_none _), rfl⟩
      next hprime =>
        rw [if_neg (mt isPrime_iff.2 hprime)] at hleft
        have hpos := ha.order_pos
        have horder := h.order_eq ▸ UInt64.le_iff_toNat_le.1 (h.order_le_below ha hle)
        have hle := UInt64.le_iff_toNat_le.1 hle
        refine (ih passed (h.turn ha hturn) hopen ?_).trans (.single hturn) hleft rfl
        show (w.below - w.order).toNat + 1 - w.lowest.toNat < fuel
        omega

/-- The next prime in a direction. -/
def next : Bool → PrimeWalk → Option UInt64 × PrimeWalk
  | true => nextAbove
  | false => nextBelow

/-- The next prime in a direction is the first that is left. -/
theorem took_next (ha : Admissible bits order) {w : PrimeWalk} (h : Sound bits order w)
    (upward : Bool) : Took upward w (next upward w) := by
  cases upward with
  | true =>
    rw [next, nextAbove]
    split
    next hopen => exact took_climb ha _ w h hopen (Nat.lt_succ_self _)
    next hclosed =>
      have hlt := h.of_closed_above (Bool.eq_false_iff.2 hclosed)
      have hnil : w.left true = [] := primesIn_eq_nil (h.toNat_highest ha ▸ hlt)
      exact ⟨.refl, rfl, fun _ => hnil, rfl⟩
  | false =>
    rw [next, nextBelow]
    split
    next hopen => exact took_descend ha _ w h hopen (Nat.lt_succ_self _)
    next hclosed =>
      have hlt := h.of_closed_below (Bool.eq_false_iff.2 hclosed)
      have hnil : w.left false = [] :=
        congrArg List.reverse (primesIn_eq_nil (h.toNat_lowest ha ▸ hlt))
      exact ⟨.refl, rfl, fun _ => hnil, rfl⟩

end Search

end PrimeWalk

end RnsEngine
