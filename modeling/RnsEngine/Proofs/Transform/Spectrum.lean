import Mathlib.Algebra.BigOperators.Intervals
import Mathlib.Tactic.Abel
import RnsEngine.Proofs.Transform.Stage
import RnsEngine.Proofs.Twiddle.Factors

/-!
# The transform of one lane

`Lanes.spectrum` is what the butterflies make of a lane, whatever the buffers held before
(`Lanes.lane_cyclicDft`). Before stage `s` the lane falls into blocks of `2 ^ s` words. The block
with number `B` holds the transform of every `2 ^ (logSide - s)`-th word, the first of them being
the one whose place is `B` with its digits reversed: this is `partialSum`. A stage joins two
neighbouring blocks, one for the even and one for the odd words of the joint selection
(`partialSum_succ_low`, `partialSum_succ_high`). After the last stage there is one block, which is
the whole transform: `Lanes.spectrum_spec`.

The only thing that is used of the root is that its power with half the length of the lane is
minus one.
-/

namespace RnsEngine

/-! ### Partial transforms -/

section PartialSum

universe u

variable {R : Type u} [CommRing R]

/-- A sum over an even number of terms, two at a time. -/
theorem sum_range_pairs (f : ℕ → R) (m : ℕ) :
    ∑ i ∈ Finset.range (m * 2), f i = ∑ i ∈ Finset.range m, (f (2 * i) + f (2 * i + 1)) := by
  induction m with
  | zero => simp
  | succ m ih =>
    rw [Nat.succ_mul, Finset.sum_range_succ, Finset.sum_range_succ, ih, Finset.sum_range_succ,
      Nat.mul_comm m 2]
    ring

/-- The transform, at frequency `j`, of those `2 ^ s` words of a sequence that are `2 ^ r` apart,
starting with the digit reversal of `block`. -/
def partialSum (x : ℕ → R) (root : R) (r s block j : ℕ) : R :=
  ∑ m ∈ Finset.range (2 ^ s), x (reverseBits block r + 2 ^ r * m) * root ^ (2 ^ r * m * j)

variable (x : ℕ → R) (root : R) (r s block j : ℕ)

/-- A single word is its own transform. -/
theorem partialSum_zero : partialSum x root r 0 block 0 = x (reverseBits block r) := by
  simp [partialSum]

/-- The selection of a block is that of its even and its odd neighbour one stage before. -/
theorem partialSum_succ (e : ℕ) :
    partialSum x root r (s + 1) block e =
      ∑ m ∈ Finset.range (2 ^ s),
        (x (reverseBits (2 * block) (r + 1) + 2 ^ (r + 1) * m) * root ^ (2 ^ (r + 1) * m * e) +
          root ^ (2 ^ r * e) * (x (reverseBits (2 * block + 1) (r + 1) + 2 ^ (r + 1) * m) *
            root ^ (2 ^ (r + 1) * m * e))) := by
  rw [partialSum, Nat.pow_succ, sum_range_pairs]
  refine Finset.sum_congr rfl fun m _ => ?_
  have heven : reverseBits (2 * block) (r + 1) = reverseBits block r := by
    simp [reverseBits]
  have hodd : reverseBits (2 * block + 1) (r + 1) = 2 ^ r + reverseBits block r := by
    have hmod : (2 * block + 1) % 2 = 1 := by omega
    have hdiv : (2 * block + 1) / 2 = block := by omega
    rw [reverseBits, hmod, hdiv, Nat.one_mul]
  -- the odd words are `2 ^ r` further on, and are turned by the root that often
  have hplace : reverseBits block r + 2 ^ r * (2 * m + 1) =
      2 ^ r + reverseBits block r + 2 ^ r * 2 * m := by ring
  have hpower : 2 ^ r * (2 * m + 1) * e = 2 ^ r * e + 2 ^ r * 2 * m * e := by ring
  rw [heven, hodd, Nat.pow_succ 2 r, hplace, hpower, pow_add, ← Nat.mul_assoc]
  ring

/-- The lower half of a block is the sum of its two parts, the odd one turned by the root. -/
theorem partialSum_succ_low :
    partialSum x root r (s + 1) block j =
      partialSum x root (r + 1) s (2 * block) j +
        root ^ (2 ^ r * j) * partialSum x root (r + 1) s (2 * block + 1) j := by
  rw [partialSum_succ, Finset.sum_add_distrib, ← Finset.mul_sum, partialSum, partialSum]

/-- The upper half of a block is their difference. -/
theorem partialSum_succ_high (hroot : root ^ (2 ^ r * 2 ^ s) = -1) :
    partialSum x root r (s + 1) block (j + 2 ^ s) =
      partialSum x root (r + 1) s (2 * block) j -
        root ^ (2 ^ r * j) * partialSum x root (r + 1) s (2 * block + 1) j := by
  have hturn : root ^ (2 ^ r * (j + 2 ^ s)) = -root ^ (2 ^ r * j) := by
    rw [Nat.mul_add, pow_add, hroot]
    ring
  have hfull : ∀ m, root ^ (2 ^ (r + 1) * m * (j + 2 ^ s)) = root ^ (2 ^ (r + 1) * m * j) := by
    intro m
    have hexp : 2 ^ (r + 1) * m * (j + 2 ^ s) =
        2 ^ (r + 1) * m * j + 2 ^ r * 2 ^ s * (2 * m) := by ring
    rw [hexp, pow_add, pow_mul root (2 ^ r * 2 ^ s), hroot, pow_mul (-1 : R), neg_one_sq, one_pow,
      mul_one]
  rw [partialSum_succ, Finset.sum_add_distrib, ← Finset.mul_sum, partialSum, partialSum, hturn]
  simp only [hfull]
  ring

end PartialSum

/-! ### Lanes of residues -/

/-- The residue of the word at a place of a lane, zero past its end. -/
def residueAt (c : Channel) {n : ℕ} (v : Vector UInt64 n) (k : ℕ) : ZMod c.modulus.toNat :=
  c.residue (v[k]?.getD 0)

/-- In the lane this is the residue of the word there. -/
theorem residueAt_of_lt (c : Channel) {n k : ℕ} (v : Vector UInt64 n) (hk : k < n) :
    residueAt c v k = c.residue v[k] := by
  simp [residueAt, hk]

/-- The sum and the difference of a butterfly, as residues. -/
theorem Channel.butterfly_spec (c : Channel) {x y w : UInt64} (hx : x < c.modulus)
    (hy : y < c.modulus) (hw : w < c.modulus) :
    (c.butterfly x y w).1 < c.modulus ∧ (c.butterfly x y w).2 < c.modulus ∧
      c.residue (c.butterfly x y w).1 = c.residue x + c.residue w * c.residue y ∧
      c.residue (c.butterfly x y w).2 = c.residue x - c.residue w * c.residue y := by
  have hyw := c.mul_lt hy hw
  have hturned : c.residue (c.mul y w) = c.residue w * c.residue y := by
    rw [c.residue_mul hy hw, mul_comm]
  rw [← hturned]
  exact ⟨c.add_lt hx hyw, c.sub_lt hx hyw, c.residue_add hx hyw, c.residue_sub hx hyw⟩

namespace Lanes

open Butterfly

variable {g : Geometry} {c : Channel} {t : Table} {h : t.Covers g}

/-- What the stages make of a lane, from its words in bit-reversed order. -/
def spectrum (c : Channel) (t : Table) (h : t.Covers g) (v : Vector UInt64 g.side) :
    Vector UInt64 g.side :=
  Fin.foldl g.logSide (stage c t h) (Vector.ofFn fun i => v.get (bitReversed g i))

/-- Writing every value to its own place makes the vector of the values. -/
theorem scatter_id {α : Type} {n : ℕ} (value : Fin n → α) (target : Vector α n) :
    scatter id value target = Vector.ofFn value :=
  Vector.ext fun k hk => by
    have hid : ∀ i j : Fin n, id i = id j → i = j := fun _ _ hij => hij
    simpa using getElem_scatter hid value target ⟨k, hk⟩

/-- The transform of a lane leaves its result in both buffers, and does not depend on what the
second buffer held. -/
theorem cyclicDft_eq (l : Lanes g) :
    cyclicDft c t h l = ⟨spectrum c t h l.lane, spectrum c t h l.lane⟩ := by
  rw [cyclicDft, scatter_id]
  rfl

/-- The words of a lane after its transform. -/
theorem lane_cyclicDft (l : Lanes g) : (cyclicDft c t h l).lane = spectrum c t h l.lane :=
  congrArg Lanes.lane (cyclicDft_eq l)

/-- Before stage `s` the words are reduced and fall into blocks of partial transforms. -/
structure Blocks (c : Channel) (x : ℕ → ZMod c.modulus.toNat) (root : ZMod c.modulus.toNat)
    (s : ℕ) (v : Vector UInt64 g.side) : Prop where
  reduced : ∀ k (hk : k < g.side), v[k] < c.modulus
  partialSum_eq : ∀ block j, j < 2 ^ s → block * 2 ^ s + j < g.side →
    residueAt c v (block * 2 ^ s + j) = partialSum x root (g.logSide - s) s block j

/-- Words in bit-reversed order are blocks of one word each. -/
theorem blocks_zero (root : ZMod c.modulus.toNat) {v : Vector UInt64 g.side}
    (hv : ∀ k (hk : k < g.side), v[k] < c.modulus) :
    Blocks c (residueAt c v) root 0 (Vector.ofFn fun i => v.get (bitReversed g i)) where
  reduced k hk := by
    rw [Vector.getElem_ofFn]
    exact hv _ _
  partialSum_eq block j hj hk := by
    obtain rfl : j = 0 := by simpa using hj
    simp only [pow_zero, Nat.mul_one, Nat.add_zero, Nat.sub_zero] at hk ⊢
    have hrev : reverseBits block g.logSide < g.side := reverseBits_lt _ _
    rw [partialSum_zero, residueAt_of_lt c _ hk, residueAt_of_lt c _ hrev, Vector.getElem_ofFn]
    rfl

variable {psi scale : ZMod c.modulus.toNat}

/-- The root of a lane, a power of the root of the tile, is turned to minus one by half the
length of the lane. -/
theorem root_pow_half (hpsi : psi ^ g.ringDim = -1) (s : Fin g.logSide) :
    (psi ^ (2 * g.side)) ^ (2 ^ (g.logSide - (s.val + 1)) * 2 ^ s.val) = -1 := by
  have hside := side_eq_groups s
  rw [Nat.sub_sub, Nat.add_comm 1] at hside
  rw [← pow_mul, ← hpsi, Geometry.ringDim]
  congr 1
  conv_rhs => rw [hside]
  conv_lhs => rw [hside]
  ring

/-- The factor of a butterfly is the power of the root that turns its frequency. -/
theorem residue_stage (ht : t.Powers h c psi scale) (s : Fin g.logSide) (b : Fin g.half) :
    c.residue (t.read h (.stage s b)) =
      (psi ^ (2 * g.side)) ^ (2 ^ (g.logSide - (s.val + 1)) * (b.val % 2 ^ s.val)) := by
  have hdiv : g.side / 2 ^ (s.val + 1) = 2 ^ (g.logSide - (s.val + 1)) :=
    Nat.pow_div s.isLt (by decide)
  rw [ht.stage, Table.exponent, hdiv, ← pow_mul]
  congr 1
  ring

/-- The word at a place of a block stands for the partial transform at the frequency of the place.
-/
theorem Blocks.residue_getElem {x : ℕ → ZMod c.modulus.toNat} {root : ZMod c.modulus.toNat}
    {s : ℕ} {v : Vector UInt64 g.side} (hv : Blocks c x root s v) {k block place : ℕ}
    (hplace : place < 2 ^ s) (hk : k < g.side) (heq : k = block * 2 ^ s + place) :
    c.residue (getElem v k hk) = partialSum x root (g.logSide - s) s block place := by
  subst heq
  rw [← hv.partialSum_eq block place hplace hk, residueAt_of_lt c v hk]

/-- The two words of a butterfly in the stage become the two halves of the joint block. -/
theorem Blocks.pair_stage {x : ℕ → ZMod c.modulus.toNat} (ht : t.Powers h c psi scale)
    (hpsi : psi ^ g.ringDim = -1) {s : Fin g.logSide} {v : Vector UInt64 g.side}
    (hv : Blocks c x (psi ^ (2 * g.side)) s v) {group place : ℕ} (hplace : place < 2 ^ s.val)
    (hgroup : group * (2 ^ s.val * 2) < g.side) :
    ∃ b : Fin g.half, first s b = group * (2 ^ s.val * 2) + place ∧
      second s b = group * (2 ^ s.val * 2) + place + 2 ^ s.val ∧
      (pair (stage c t h v s) s b).1 < c.modulus ∧ (pair (stage c t h v s) s b).2 < c.modulus ∧
      c.residue (pair (stage c t h v s) s b).1 =
        partialSum x (psi ^ (2 * g.side)) (g.logSide - (s.val + 1)) (s.val + 1) group place ∧
      c.residue (pair (stage c t h v s) s b).2 =
        partialSum x (psi ^ (2 * g.side)) (g.logSide - (s.val + 1)) (s.val + 1) group
          (place + 2 ^ s.val) := by
  obtain ⟨b, hmod, hfirst, hsecond⟩ := exists_first_eq s hplace hgroup
  have hr : g.logSide - s.val = g.logSide - (s.val + 1) + 1 := by omega
  -- the words of the butterfly stand in the same place of two neighbouring blocks
  have hlow : c.residue (pair v s b).1 = partialSum x (psi ^ (2 * g.side))
      (g.logSide - (s.val + 1) + 1) s.val (2 * group) place :=
    hr ▸ hv.residue_getElem hplace (first_lt s b) (by rw [hfirst]; ring)
  have hhigh : c.residue (pair v s b).2 = partialSum x (psi ^ (2 * g.side))
      (g.logSide - (s.val + 1) + 1) s.val (2 * group + 1) place :=
    hr ▸ hv.residue_getElem hplace (second_lt s b) (by rw [hsecond]; ring)
  have hfactor := residue_stage ht s b
  rw [hmod] at hfactor
  obtain ⟨hlt1, hlt2, hres1, hres2⟩ := c.butterfly_spec (hv.reduced _ (first_lt s b))
    (hv.reduced _ (second_lt s b)) (ht.read_lt (.stage s b))
  refine ⟨b, hfirst, hsecond, ?_⟩
  rw [Lanes.pair_stage]
  refine ⟨hlt1, hlt2, ?_, ?_⟩
  · rw [partialSum_succ_low, ← hlow, ← hhigh, ← hfactor]
    exact hres1
  · rw [partialSum_succ_high _ _ _ _ _ _ (root_pow_half hpsi s), ← hlow, ← hhigh, ← hfactor]
    exact hres2

/-- A stage joins neighbouring blocks. -/
theorem Blocks.stage {x : ℕ → ZMod c.modulus.toNat} (ht : t.Powers h c psi scale)
    (hpsi : psi ^ g.ringDim = -1) {s : Fin g.logSide} {v : Vector UInt64 g.side}
    (hv : Blocks c x (psi ^ (2 * g.side)) s v) :
    Blocks c x (psi ^ (2 * g.side)) (s.val + 1) (stage c t h v s) where
  reduced k hk := by
    have hpos : 0 < 2 ^ s.val * 2 := Nat.mul_pos (Nat.two_pow_pos _) Nat.two_pos
    have hdiv := Nat.div_add_mod' k (2 ^ s.val * 2)
    have hrest := Nat.mod_lt k hpos
    have hgroup : k / (2 ^ s.val * 2) * (2 ^ s.val * 2) < g.side := by omega
    -- a word is the first of its butterfly in the lower half of its block, else the second
    rcases Nat.lt_or_ge (k % (2 ^ s.val * 2)) (2 ^ s.val) with hlow | hhigh
    · obtain ⟨b, hfirst, -, hlt, -⟩ := hv.pair_stage ht hpsi hlow hgroup
      rw [hdiv] at hfirst
      simpa only [pair, hfirst] using hlt
    · have hplace : k % (2 ^ s.val * 2) - 2 ^ s.val < 2 ^ s.val := by omega
      obtain ⟨b, -, hsecond, -, hlt, -⟩ := hv.pair_stage ht hpsi hplace hgroup
      rw [Nat.add_assoc, Nat.sub_add_cancel hhigh, hdiv] at hsecond
      simpa only [pair, hsecond] using hlt
  partialSum_eq group j hj hk := by
    rw [pow_succ] at hj hk
    have hgroup : group * (2 ^ s.val * 2) < g.side := by omega
    rcases Nat.lt_or_ge j (2 ^ s.val) with hlow | hhigh
    · obtain ⟨b, hfirst, -, -, -, hres, -⟩ := hv.pair_stage ht hpsi hlow hgroup
      rw [pow_succ, residueAt_of_lt c _ hk, ← hres]
      simp only [pair, hfirst]
    · have hplace : j - 2 ^ s.val < 2 ^ s.val := by omega
      obtain ⟨b, -, hsecond, -, -, -, hres⟩ := hv.pair_stage ht hpsi hplace hgroup
      rw [Nat.add_assoc, Nat.sub_add_cancel hhigh] at hsecond
      rw [Nat.sub_add_cancel hhigh] at hres
      rw [pow_succ, residueAt_of_lt c _ hk, ← hres]
      simp only [pair, hsecond]

/-- **The transform of a lane.** With a table of powers, the stages turn a reduced lane into the
reduced lane of its values at the powers of the root of the lane. -/
theorem spectrum_spec (ht : t.Powers h c psi scale) (hpsi : psi ^ g.ringDim = -1)
    {v : Vector UInt64 g.side} (hv : ∀ k (hk : k < g.side), v[k] < c.modulus) (k : Fin g.side) :
    (spectrum c t h v).get k < c.modulus ∧ c.residue ((spectrum c t h v).get k) =
      ∑ n : Fin g.side, c.residue (v.get n) * psi ^ (2 * g.side * n.val * k.val) := by
  -- after the last stage the lane is a single block, which starts with the word at place zero
  have hend := foldl_carries (Blocks c (residueAt c v) (psi ^ (2 * g.side)))
    (Lanes.stage c t h) (blocks_zero _ hv) fun _ _ hb => hb.stage ht hpsi
  refine ⟨hend.reduced k k.isLt, ?_⟩
  have hsum := hend.partialSum_eq 0 k.val k.isLt (by omega)
  rw [Nat.zero_mul, Nat.zero_add, Nat.sub_self, residueAt_of_lt c _ k.isLt] at hsum
  rw [partialSum, Finset.sum_range] at hsum
  refine hsum.trans (Finset.sum_congr rfl fun n _ => ?_)
  simp only [reverseBits, pow_zero, Nat.one_mul, Nat.zero_add, ← pow_mul, Nat.mul_assoc]
  rw [residueAt_of_lt c v n.isLt]
  rfl

end Lanes

end RnsEngine
