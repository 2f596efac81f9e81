import Mathlib.Data.PFun
import Mathlib.Logic.Equiv.Fin.Basic
import Mathlib.Order.Bounds.Basic
import Mathlib.SetTheory.Cardinal.Finite
import RnsEngine.Sampler.Draw

/-!
# Sampling by rejection

A draw below a bound looks at a stream word by word, and takes the first one that is below the
bound after masking (`accepted`, `taken`). With a limit on the words that are looked at it is
`below`; without one it is `search`, which does not end on a stream with no such word. Both find
the same word (`masked_eq`, `mem_search_iff`), by induction on its place, and leave the stream
right after it.

The mask keeps the digits of the largest number below the bound (`maskDigits`), so that masking
takes the remainder by a power of two (`toNat_and_maskBelow`), one that is at most twice the bound.
A word is the number that its digits within the mask form, together with the one that the others
form (`split`). Hence all masked values are equally frequent among the words (`card_masking`), and
at least half of the words are accepted (`half_le_card_accepting`).

That a draw is uniform as a whole, whatever number of words it takes, is seen by exchanging two
numbers below the bound in every word (`exchange`). The same words are accepted afterwards, so the
draw ends in the same place, with the other number (`masked_relabelled`, `card_drawing`).
-/

namespace RnsEngine

/-! ### Tapes -/

namespace Tape

/-- A block of words, as a tape that goes on with zeros. -/
def ofBlock {n : ℕ} (words : Fin n → UInt64) : Tape where
  word i := if h : i < n then words ⟨i, h⟩ else 0
  position := 0

/-- A tape is passed over by its position. -/
theorem skip_eq (count : ℕ) (t : Tape) :
    WordStream.skip count t = { t with position := t.position + count } := by
  induction count generalizing t with
  | zero => rfl
  | succ count ih =>
    refine (ih (WordStream.next t).2).trans ?_
    change { t with position := t.position + 1 + count } = _
    rw [Nat.add_right_comm, Nat.add_assoc]

/-- The words of a tape are those from its position on. -/
theorem wordAt_eq (t : Tape) (k : ℕ) : WordStream.wordAt t k = t.word (t.position + k) := by
  rw [WordStream.wordAt, skip_eq]
  rfl

/-- The first words of the tape of a block are those of the block. -/
theorem wordAt_ofBlock {n k : ℕ} (words : Fin n → UInt64) (hk : k < n) :
    WordStream.wordAt (ofBlock words) k = words ⟨k, hk⟩ := by
  rw [wordAt_eq, ofBlock, Nat.zero_add]
  exact dif_pos hk

end Tape

namespace Sampler

open WordStream

section Search

variable {σ : Type} [WordStream σ] {bound mask : UInt64} {s : σ} {k : ℕ}

/-- Looks at one word: gives the masked word when it is below `bound`, and only the stream after it
when it is not. -/
def look (bound mask : UInt64) (s : σ) : (UInt64 × σ) ⊕ σ :=
  let drawn := next s
  let x := drawn.1 &&& mask
  if bound ≤ x then .inr drawn.2 else .inl (x, drawn.2)

/-- Looks at one word after the other, as many as it takes. -/
def search (bound mask : UInt64) : σ →. UInt64 × σ :=
  PFun.fix fun s => Part.some (look bound mask s)

/-- The places of a stream whose words are below a bound after masking. -/
def accepted (bound mask : UInt64) (s : σ) : Set ℕ :=
  {k | wordAt s k &&& mask < bound}

/-- The masked word in a place, and the stream after it. -/
def taken (mask : UInt64) (s : σ) (k : ℕ) : UInt64 × σ :=
  (wordAt s k &&& mask, skip (k + 1) s)

/-! ### One word -/

/-- After the first word the places of a stream are those of its rest. -/
theorem succ_mem_accepted : k + 1 ∈ accepted bound mask s ↔ k ∈ accepted bound mask (next s).2 :=
  Iff.rfl

/-- After the first word a stream holds what its rest holds. -/
theorem taken_succ : taken mask s (k + 1) = taken mask (next s).2 k := rfl

/-- Before a later first place the first word is rejected. -/
theorem zero_rejected (h : IsLeast (accepted bound mask s) (k + 1)) : 0 ∉ accepted bound mask s :=
  fun hzero => Nat.not_succ_le_zero k (h.2 hzero)

/-- A later first place is the first one of the rest. -/
theorem isLeast_rest (h : IsLeast (accepted bound mask s) (k + 1)) :
    IsLeast (accepted bound mask (next s).2) k :=
  ⟨succ_mem_accepted.1 h.1, fun _ hj => Nat.le_of_succ_le_succ (h.2 (succ_mem_accepted.2 hj))⟩

/-- An accepted first word is given. -/
theorem look_of_accepted (h : 0 ∈ accepted bound mask s) :
    look bound mask s = .inl (taken mask s 0) :=
  if_neg (UInt64.not_le.2 h)

/-- A rejected first word is passed over. -/
theorem look_of_rejected (h : 0 ∉ accepted bound mask s) : look bound mask s = .inr (next s).2 :=
  if_pos (UInt64.not_lt.1 h)

/-- A search ends with an accepted first word. -/
theorem search_of_accepted (h : 0 ∈ accepted bound mask s) :
    search bound mask s = Part.some (taken mask s 0) :=
  Part.eq_some_iff.2 (PFun.fix_stop (Part.mem_some_iff.2 (look_of_accepted h).symm))

/-- A search goes on after a rejected first word. -/
theorem search_of_rejected (h : 0 ∉ accepted bound mask s) :
    search bound mask s = search bound mask (next s).2 :=
  PFun.fix_fwd_eq (Part.mem_some_iff.2 (look_of_rejected h).symm)

/-- A search with a limit ends with an accepted first word. -/
theorem masked_of_accepted (h : 0 ∈ accepted bound mask s) (limit : ℕ) :
    masked (limit + 1) bound mask s = .ok (taken mask s 0) := by
  rw [masked]
  exact if_neg (UInt64.not_le.2 h)

/-- A search with a limit goes on after a rejected first word, with one word less. -/
theorem masked_of_rejected (h : 0 ∉ accepted bound mask s) (limit : ℕ) :
    masked (limit + 1) bound mask s = masked limit bound mask (next s).2 := by
  rw [masked]
  exact if_pos (UInt64.not_lt.1 h)

/-! ### Whole searches -/

/-- A stream that holds an acceptable word has a first one. -/
theorem exists_isLeast (h : (accepted bound mask s).Nonempty) :
    ∃ k, IsLeast (accepted bound mask s) k := by
  classical
  exact ⟨_, Nat.isLeast_find h⟩

/-- The first accepted word is found. -/
theorem search_of_isLeast (h : IsLeast (accepted bound mask s) k) :
    search bound mask s = Part.some (taken mask s k) := by
  induction k generalizing s with
  | zero => exact search_of_accepted h.1
  | succ k ih =>
    rw [search_of_rejected (zero_rejected h), ih (isLeast_rest h), taken_succ]

/-- A search that ends has found an acceptable word. -/
theorem accepted_nonempty_of_search {r : UInt64 × σ} (h : r ∈ search bound mask s) :
    (accepted bound mask s).Nonempty := by
  refine PFun.fixInduction (C := fun s => (accepted bound mask s).Nonempty) h fun s _ ih => ?_
  by_cases hzero : 0 ∈ accepted bound mask s
  · exact ⟨0, hzero⟩
  · obtain ⟨k, hk⟩ := ih _ (Part.mem_some_iff.2 (look_of_rejected hzero).symm)
    exact ⟨k + 1, succ_mem_accepted.2 hk⟩

/-- A search finds the first accepted word, and nothing else. -/
theorem mem_search_iff {r : UInt64 × σ} :
    r ∈ search bound mask s ↔ ∃ k, IsLeast (accepted bound mask s) k ∧ r = taken mask s k := by
  constructor
  · intro h
    obtain ⟨k, hk⟩ := exists_isLeast (accepted_nonempty_of_search h)
    rw [search_of_isLeast hk] at h
    exact ⟨k, hk, Part.mem_some_iff.1 h⟩
  · rintro ⟨k, hk, rfl⟩
    rw [search_of_isLeast hk]
    exact Part.mem_some _

/-- Where there is nothing to accept a search does not end. -/
theorem search_of_empty (h : accepted bound mask s = ∅) : search bound mask s = Part.none := by
  refine Part.eq_none_iff.2 fun r hr => ?_
  obtain ⟨k, hk⟩ := accepted_nonempty_of_search hr
  exact (h ▸ hk : k ∈ (∅ : Set ℕ))

/-- A search with a limit finds the first accepted word when the limit is beyond it. -/
theorem masked_eq (h : IsLeast (accepted bound mask s) k) (limit : ℕ) :
    masked limit bound mask s = if k < limit then .ok (taken mask s k) else .error .starved := by
  induction limit generalizing s k with
  | zero => exact (if_neg (Nat.not_lt_zero k)).symm
  | succ limit ih =>
    cases k with
    | zero => rw [masked_of_accepted h.1, if_pos (Nat.succ_pos limit)]
    | succ k =>
      rw [masked_of_rejected (zero_rejected h), ih (isLeast_rest h), taken_succ]
      exact if_congr Nat.succ_lt_succ_iff.symm rfl rfl

/-- A search with a limit starves where there is nothing to accept. -/
theorem masked_of_empty (h : accepted bound mask s = ∅) (limit : ℕ) :
    masked limit bound mask s = .error .starved := by
  induction limit generalizing s with
  | zero => rfl
  | succ limit ih =>
    have hall := Set.eq_empty_iff_forall_notMem.1 h
    rw [masked_of_rejected (hall 0)]
    exact ih (Set.eq_empty_iff_forall_notMem.2 fun k hk => hall (k + 1) (succ_mem_accepted.2 hk))

end Search

/-! ### Masks -/

section Mask

variable {bound : UInt64}

/-- The digits that the mask for a bound keeps: those of the largest number below it, but at least
one. -/
def maskDigits (bound : UInt64) : ℕ := max (bitLength (bound - 1).toNat) 1

/-- A mask keeps a digit. -/
theorem maskDigits_pos (bound : UInt64) : 0 < maskDigits bound := Nat.le_max_right _ _

/-- A mask keeps no more digits than a word has. -/
theorem maskDigits_le (bound : UInt64) : maskDigits bound ≤ 64 :=
  Nat.max_le.2 ⟨bitLength_le_of_lt (bound - 1).toNat_lt, by decide⟩

/-- The number below a positive bound. -/
theorem toNat_pred (hbound : 0 < bound) : (bound - 1).toNat = bound.toNat - 1 := by
  have hone : (1 : UInt64) ≤ bound := UInt64.le_iff_toNat_le.2 (UInt64.lt_iff_toNat_lt.1 hbound)
  rw [UInt64.toNat_sub_of_le _ _ hone]
  rfl

/-- The digits of a mask are the lowest ones. -/
theorem toNat_maskBelow (bound : UInt64) :
    (maskBelow bound).toNat = 2 ^ maskDigits bound - 1 := by
  have hlen : bitLength (bound - 1).toNat ≤ 64 := bitLength_le_of_lt (bound - 1).toNat_lt
  have hshift : min (64 - bitLength (bound - 1).toNat) 63 = 64 - maskDigits bound := by
    rw [maskDigits]
    omega
  have hle := maskDigits_le bound
  have hpos := maskDigits_pos bound
  have hall : (0xFFFFFFFFFFFFFFFF : UInt64).toNat = 2 ^ 64 - 1 := rfl
  have hword : (UInt64.ofNat (64 - maskDigits bound)).toNat % 64 = 64 - maskDigits bound := by
    rw [UInt64.toNat_ofNat_of_lt' (Nat.lt_of_le_of_lt (Nat.sub_le _ _) (by decide))]
    exact Nat.mod_eq_of_lt (by omega)
  have hfactor : 2 ^ 64 = 2 ^ (64 - maskDigits bound) * 2 ^ maskDigits bound := by
    rw [← Nat.pow_add, Nat.sub_add_cancel hle]
  rw [maskBelow, hshift, UInt64.toNat_shiftRight, hword, hall, Nat.shiftRight_eq_div_pow, hfactor,
    Nat.mul_sub_div 0 _ _ (Nat.mul_pos (Nat.two_pow_pos _) (Nat.two_pow_pos _)), Nat.zero_div]

/-- The successor of a mask is a power of two. -/
theorem toNat_maskBelow_succ (bound : UInt64) :
    (maskBelow bound).toNat + 1 = 2 ^ maskDigits bound := by
  rw [toNat_maskBelow, Nat.sub_add_cancel Nat.one_le_two_pow]

/-- Masking takes the remainder by a power of two. -/
theorem toNat_and_maskBelow (w bound : UInt64) :
    (w &&& maskBelow bound).toNat = w.toNat % 2 ^ maskDigits bound := by
  rw [UInt64.toNat_and, toNat_maskBelow]
  exact Nat.and_two_pow_sub_one_eq_mod _ _

/-- Every number below the bound has only digits that its mask keeps. -/
theorem le_two_pow_maskDigits (hbound : 0 < bound) : bound.toNat ≤ 2 ^ maskDigits bound := by
  have hlen : bound.toNat - 1 < 2 ^ bitLength (bound - 1).toNat := by
    rw [← toNat_pred hbound]
    exact lt_two_pow_bitLength _
  have hmax : 2 ^ bitLength (bound - 1).toNat ≤ 2 ^ maskDigits bound :=
    Nat.pow_le_pow_right (by decide) (Nat.le_max_left _ _)
  omega

/-- The mask of a bound keeps no digit that would double it. -/
theorem two_pow_maskDigits_le (hbound : 0 < bound) : 2 ^ maskDigits bound ≤ 2 * bound.toNat := by
  have hpos : 0 < bound.toNat := UInt64.lt_iff_toNat_lt.1 hbound
  have hpred := toNat_pred hbound
  by_cases hone : (bound - 1).toNat = 0
  · rw [maskDigits, hone]
    exact Nat.mul_le_mul_left 2 hpos
  · have hlen : 0 < bitLength (bound - 1).toNat := by
      rw [bitLength, if_neg hone]
      exact Nat.succ_pos _
    have hdigits : maskDigits bound = bitLength (bound - 1).toNat - 1 + 1 := by
      rw [maskDigits]
      omega
    have hhalf := two_pow_le_of_pos (Nat.pos_of_ne_zero hone)
    rw [hdigits, Nat.pow_succ]
    omega

/-- Masking leaves the numbers below the bound alone. -/
theorem and_maskBelow_of_lt {v : UInt64} (hv : v < bound) : v &&& maskBelow bound = v := by
  have hbound : 0 < bound := UInt64.lt_of_le_of_lt (UInt64.zero_le) hv
  rw [← UInt64.toNat_inj, toNat_and_maskBelow]
  exact Nat.mod_eq_of_lt
    (Nat.lt_of_lt_of_le (UInt64.lt_iff_toNat_lt.1 hv) (le_two_pow_maskDigits hbound))

end Mask

/-! ### Words by their digits within the mask -/

section Uniform

variable {bound : UInt64}

/-- A word, as the number that its digits within the mask form and the one that the others form. -/
def split (bound : UInt64) :
    UInt64 ≃ Fin (2 ^ maskDigits bound) × Fin (2 ^ (64 - maskDigits bound)) :=
  have hsize : UInt64.size = 2 ^ (64 - maskDigits bound) * 2 ^ maskDigits bound := by
    rw [← Nat.pow_add, Nat.sub_add_cancel (maskDigits_le bound)]
  (Equiv.mk UInt64.toFin UInt64.ofFin UInt64.ofFin_toFin UInt64.toFin_ofFin).trans
    ((finCongr hsize).trans (finProdFinEquiv.symm.trans (Equiv.prodComm _ _)))

/-- The number that the digits of a word within the mask form. -/
def lowest (bound w : UInt64) : Fin (2 ^ maskDigits bound) := (split bound w).1

/-- The masked word is the number that the digits within the mask form. -/
theorem val_lowest (bound w : UInt64) : (lowest bound w).val = (w &&& maskBelow bound).toNat :=
  (toNat_and_maskBelow w bound).symm

/-- The words whose digits within the mask have a property are those digits with any others. -/
theorem card_lowest (P : Fin (2 ^ maskDigits bound) → Prop) :
    Nat.card {w // P (lowest bound w)} = Nat.card {x // P x} * 2 ^ (64 - maskDigits bound) := by
  have hpairs : {w // P (lowest bound w)} ≃ {x // P x} × Fin (2 ^ (64 - maskDigits bound)) :=
    ((split bound).subtypeEquiv fun _ => Iff.rfl).trans Equiv.prodSubtypeFstEquivSubtypeProd
  rw [Nat.card_congr hpairs, Nat.card_prod, Nat.card_fin]

/-- A word masks to a number below the bound when its digits within the mask are those of the
number. -/
theorem and_eq_iff {v : UInt64} (hv : v < bound) (w : UInt64) :
    w &&& maskBelow bound = v ↔ lowest bound w = lowest bound v := by
  rw [Fin.ext_iff, val_lowest, val_lowest, and_maskBelow_of_lt hv, UInt64.toNat_inj]

/-- A masked word is below the bound when the number of its digits is. -/
theorem and_lt_iff (w : UInt64) :
    w &&& maskBelow bound < bound ↔ (lowest bound w).val < bound.toNat := by
  rw [val_lowest, UInt64.lt_iff_toNat_lt]

/-- All numbers below the bound are masked values of equally many words. -/
theorem card_masking {v : UInt64} (hv : v < bound) :
    Nat.card {w : UInt64 // w &&& maskBelow bound = v} =
      2 ^ 64 / ((maskBelow bound).toNat + 1) := by
  simp only [and_eq_iff hv]
  rw [card_lowest fun x => x = lowest bound v, Nat.card_unique, Nat.one_mul,
    toNat_maskBelow_succ, Nat.pow_div (maskDigits_le bound) (by decide)]

/-- As many words are accepted as the bound has numbers below it, for any digits outside the mask.
-/
theorem card_accepting (hbound : 0 < bound) :
    Nat.card {w : UInt64 // w &&& maskBelow bound < bound} =
      bound.toNat * 2 ^ (64 - maskDigits bound) := by
  have hnumbers := Nat.card_congr (Fin.castLEquiv (le_two_pow_maskDigits hbound))
  simp only [and_lt_iff]
  rw [card_lowest fun x => x.val < bound.toNat, ← hnumbers, Nat.card_fin]

/-- At least half of all words are accepted. -/
theorem half_le_card_accepting (hbound : 0 < bound) :
    2 ^ 64 ≤ 2 * Nat.card {w : UInt64 // w &&& maskBelow bound < bound} := by
  have hfactor : 2 ^ 64 = 2 ^ maskDigits bound * 2 ^ (64 - maskDigits bound) := by
    rw [← Nat.pow_add, Nat.add_sub_cancel' (maskDigits_le bound)]
  rw [card_accepting hbound, hfactor, ← Nat.mul_assoc]
  exact Nat.mul_le_mul_right _ (two_pow_maskDigits_le hbound)

/-- The words with the numbers `v` and `v'` exchanged, the digits outside the mask kept. -/
def exchange (bound v v' : UInt64) : UInt64 ≃ UInt64 :=
  (split bound).trans
    (((Equiv.swap (lowest bound v) (lowest bound v')).prodCongr (Equiv.refl _)).trans
      (split bound).symm)

/-- The digits within the mask are exchanged. -/
theorem lowest_exchange (bound v v' w : UInt64) :
    lowest bound (exchange bound v v' w) =
      Equiv.swap (lowest bound v) (lowest bound v') (lowest bound w) := by
  rw [lowest, exchange, Equiv.trans_apply, Equiv.trans_apply, Equiv.apply_symm_apply]
  rfl

/-- What masks to one of the numbers is exchanged with what masks to the other. -/
theorem exchange_and_eq_iff {v v' : UInt64} (hv : v < bound) (hv' : v' < bound) (w : UInt64) :
    exchange bound v v' w &&& maskBelow bound = v' ↔ w &&& maskBelow bound = v := by
  rw [and_eq_iff hv', and_eq_iff hv, lowest_exchange, Equiv.swap_apply_eq_iff,
    Equiv.swap_apply_right]

/-- An exchange of two numbers below the bound keeps the words that are accepted. -/
theorem exchange_and_lt_iff {v v' : UInt64} (hv : v < bound) (hv' : v' < bound) (w : UInt64) :
    exchange bound v v' w &&& maskBelow bound < bound ↔ w &&& maskBelow bound < bound := by
  have hlt : (lowest bound v).val < bound.toNat := by
    rwa [← and_lt_iff, and_maskBelow_of_lt hv]
  have hlt' : (lowest bound v').val < bound.toNat := by
    rwa [← and_lt_iff, and_maskBelow_of_lt hv']
  rw [and_lt_iff, and_lt_iff, lowest_exchange, Equiv.swap_apply_def]
  split_ifs with h h'
  · exact iff_of_true hlt' (h ▸ hlt)
  · exact iff_of_true hlt (h' ▸ hlt')
  · exact Iff.rfl

/-- A search over relabelled words finds one number where the search over the words finds another.
-/
theorem masked_relabelled {σ : Type} [WordStream σ] {mask v v' : UInt64} {f : UInt64 → UInt64}
    (hlt : ∀ w, f w &&& mask < bound ↔ w &&& mask < bound)
    (heq : ∀ w, f w &&& mask = v' ↔ w &&& mask = v) {limit : ℕ} {s s' : σ}
    (hwords : ∀ k < limit, wordAt s' k = f (wordAt s k)) :
    (masked limit bound mask s').map Prod.fst = .ok v' ↔
      (masked limit bound mask s).map Prod.fst = .ok v := by
  induction limit generalizing s s' with
  | zero => exact iff_of_false nofun nofun
  | succ limit ih =>
    have hfirst := hwords 0 (Nat.succ_pos limit)
    have hiff : 0 ∈ accepted bound mask s' ↔ 0 ∈ accepted bound mask s := by
      change wordAt s' 0 &&& mask < bound ↔ wordAt s 0 &&& mask < bound
      rw [hfirst, hlt]
    by_cases hzero : 0 ∈ accepted bound mask s
    · rw [masked_of_accepted hzero, masked_of_accepted (hiff.2 hzero)]
      change Except.ok (wordAt s' 0 &&& mask) = Except.ok v' ↔
        Except.ok (wordAt s 0 &&& mask) = Except.ok v
      rw [Except.ok.injEq, Except.ok.injEq, hfirst, heq]
    · rw [masked_of_rejected hzero, masked_of_rejected (mt hiff.1 hzero)]
      exact ih fun k hk => hwords (k + 1) (Nat.succ_lt_succ hk)

/-- With a positive bound a draw is a search with a limit. -/
theorem below_of_pos {σ : Type} [WordStream σ] (hbound : 0 < bound) (limit : ℕ) (s : σ) :
    below limit bound s = masked limit bound (maskBelow bound) s :=
  if_neg (UInt64.pos_iff_ne_zero.1 hbound)

/-- Two numbers below the bound are drawn from equally many blocks of words. -/
theorem card_drawing (n : ℕ) {v v' : UInt64} (hv : v < bound) (hv' : v' < bound) :
    Nat.card {words : Fin n → UInt64 //
        (below n bound (Tape.ofBlock words)).map Prod.fst = .ok v} =
      Nat.card {words : Fin n → UInt64 //
        (below n bound (Tape.ofBlock words)).map Prod.fst = .ok v'} := by
  have hbound : 0 < bound := UInt64.lt_of_le_of_lt UInt64.zero_le hv
  refine Nat.card_congr
    ((Equiv.piCongrRight fun _ => exchange bound v v').subtypeEquiv fun words => ?_)
  rw [below_of_pos hbound, below_of_pos hbound]
  refine (masked_relabelled (exchange_and_lt_iff hv hv') (exchange_and_eq_iff hv hv') ?_).symm
  intro k hk
  rw [Tape.wordAt_ofBlock _ hk, Tape.wordAt_ofBlock _ hk]
  rfl

end Uniform

/-! ### Draws -/

/-- **A draw takes the first acceptable word, and is exactly uniform.** The mask is the predecessor
of a power of two, one that is at most twice the bound, and keeps the digits of the largest number
below the bound. Every number below the bound is the masked value of equally many words, and is
drawn from equally many blocks of words; at least half of all words are accepted.

On a stream that holds an acceptable word the draw ends with the first one: it gives its masked
value and leaves the stream right after it, and so does the draw with a limit beyond that word. On
any other stream there is no draw. -/
theorem below_outcome {bound : UInt64} (hbound : 0 < bound) :
    (∃ b, 1 ≤ b ∧ b ≤ 64 ∧ (maskBelow bound).toNat = 2 ^ b - 1) ∧
      (bound - 1) &&& maskBelow bound = bound - 1 ∧
      (maskBelow bound).toNat + 1 ≤ 2 * bound.toNat ∧
      (∀ v < bound, Nat.card {w : UInt64 // w &&& maskBelow bound = v} =
        2 ^ 64 / ((maskBelow bound).toNat + 1)) ∧
      (∀ n, ∀ v < bound, ∀ v' < bound,
        Nat.card {words : Fin n → UInt64 //
            (below n bound (Tape.ofBlock words)).map Prod.fst = .ok v} =
          Nat.card {words : Fin n → UInt64 //
            (below n bound (Tape.ofBlock words)).map Prod.fst = .ok v'}) ∧
      2 ^ 64 ≤ 2 * Nat.card {w : UInt64 // w &&& maskBelow bound < bound} ∧
      ∀ {σ : Type} [WordStream σ] (s : σ),
        ((accepted bound (maskBelow bound) s).Nonempty →
          ∃ k, IsLeast (accepted bound (maskBelow bound) s) k ∧
            search bound (maskBelow bound) s = Part.some (taken (maskBelow bound) s k) ∧
            ∀ limit, below limit bound s =
              if k < limit then .ok (taken (maskBelow bound) s k) else .error .starved) ∧
        (accepted bound (maskBelow bound) s = ∅ →
          search bound (maskBelow bound) s = Part.none ∧
          ∀ limit, below limit bound s = .error .starved) := by
  have hpred : bound - 1 < bound := by
    have hpos : 0 < bound.toNat := UInt64.lt_iff_toNat_lt.1 hbound
    rw [UInt64.lt_iff_toNat_lt, toNat_pred hbound]
    omega
  have htight : (maskBelow bound).toNat + 1 ≤ 2 * bound.toNat :=
    (toNat_maskBelow_succ bound).trans_le (two_pow_maskDigits_le hbound)
  refine ⟨⟨maskDigits bound, maskDigits_pos bound, maskDigits_le bound, toNat_maskBelow bound⟩,
    and_maskBelow_of_lt hpred, htight, fun v hv => card_masking hv,
    fun n v hv v' hv' => card_drawing n hv hv', half_le_card_accepting hbound, ?_⟩
  intro σ _ s
  refine ⟨fun hsome => ?_, fun hempty => ?_⟩
  · obtain ⟨k, hk⟩ := exists_isLeast hsome
    refine ⟨k, hk, search_of_isLeast hk, fun limit => ?_⟩
    rw [below_of_pos hbound, masked_eq hk]
  · refine ⟨search_of_empty hempty, fun limit => ?_⟩
    rw [below_of_pos hbound, masked_of_empty hempty]

/-- For a bound just above half of the words every digit is kept, so that each number is the value
of one word; a first word beyond the bound is passed over. -/
theorem below_outcome_second_word :
    (0 : UInt64) < 0x8000000000000001 ∧
      maskBelow 0x8000000000000001 = 0xFFFFFFFFFFFFFFFF ∧
      Nat.card {w : UInt64 // w &&& 0xFFFFFFFFFFFFFFFF = 0x8000000000000000} = 1 ∧
      let tape : Tape := ⟨fun i => if i = 0 then 0x8000000000000001 else 0x8000000000000000, 0⟩
      search 0x8000000000000001 0xFFFFFFFFFFFFFFFF tape =
          Part.some (0x8000000000000000, { tape with position := 2 }) ∧
        below 1 0x8000000000000001 tape = .error .starved ∧
        below 2 0x8000000000000001 tape =
          .ok (0x8000000000000000, { tape with position := 2 }) := by
  have hbound : (0 : UInt64) < 0x8000000000000001 := by decide
  have hmask : maskBelow 0x8000000000000001 = 0xFFFFFFFFFFFFFFFF := by decide
  obtain ⟨-, -, -, hcount, -, -, hdraw⟩ := below_outcome hbound
  rw [hmask] at hcount hdraw
  refine ⟨hbound, hmask, hcount 0x8000000000000000 (by decide), ?_⟩
  intro tape
  have hsecond : 1 ∈ accepted 0x8000000000000001 0xFFFFFFFFFFFFFFFF tape := by
    change (0x8000000000000000 : UInt64) &&& 0xFFFFFFFFFFFFFFFF < 0x8000000000000001
    decide
  have hfirst : 0 ∉ accepted 0x8000000000000001 0xFFFFFFFFFFFFFFFF tape := by
    change ¬ (0x8000000000000001 : UInt64) &&& 0xFFFFFFFFFFFFFFFF < 0x8000000000000001
    decide
  obtain ⟨k, hk, hsearch, hbelow⟩ := (hdraw tape).1 ⟨1, hsecond⟩
  have hone : k = 1 := by
    have hle := hk.2 hsecond
    have hne : k ≠ 0 := fun h => hfirst (h ▸ hk.1)
    omega
  subst hone
  have hvalue : (0x8000000000000000 : UInt64) &&& 0xFFFFFFFFFFFFFFFF = 0x8000000000000000 := by
    decide
  have htaken : taken 0xFFFFFFFFFFFFFFFF tape 1 =
      (0x8000000000000000, { tape with position := 2 }) :=
    congrArg (·, { tape with position := 2 }) hvalue
  rw [htaken] at hsearch hbelow
  exact ⟨hsearch, hbelow 1, hbelow 2⟩

end Sampler

end RnsEngine
