import RnsEngine.Tile.Scatter
import RnsEngine.Twiddle.Table

/-!
# The transform of one lane

A lane is a row or a column of a tile. Its cyclic transform is computed in place by stages of
butterflies: the words are taken in bit-reversed order into a second buffer, and butterfly `b`
of stage `s` combines two words of that buffer which are `2 ^ s` apart. The pairs of a stage do
not overlap, so the order of its butterflies does not show.

Both buffers belong to the datapath and are written over in every transform.
-/

namespace RnsEngine

/-! ### Butterflies -/

/-- Sum and difference of one word and the multiple of another. -/
def butterfly (x y factor modulus multiplier : UInt64) (bits : Nat) : UInt64 × UInt64 :=
  let t := mulMod y factor modulus multiplier bits
  (addMod x t modulus, subMod x t modulus)

/-- The butterfly of a channel. -/
def Channel.butterfly (c : Channel) (x y factor : UInt64) : UInt64 × UInt64 :=
  RnsEngine.butterfly x y factor c.modulus c.constants.multiplier c.constants.bits

namespace Butterfly

/-- The first position of butterfly `b` in a stage. Positions are 64-bit words: in the last stage
that a word has a bit for, the step from group to group wraps around to zero. -/
def first (stage b : Nat) : Nat :=
  (b / 2 ^ stage * (2 ^ stage * 2) + b % 2 ^ stage) % 2 ^ 64

/-- The second position of butterfly `b` in a stage, on the same circle of words. -/
def second (stage b : Nat) : Nat := (first stage b + 2 ^ stage) % 2 ^ 64

variable {g : Geometry}

/-- The groups of a stage and the places in a group fill the lane. -/
theorem group_add_place_lt (s : Fin g.logSide) (b : Fin g.half) :
    b.val / 2 ^ s.val * (2 ^ s.val * 2) + b.val % 2 ^ s.val + 2 ^ s.val < g.side := by
  have hh : 0 < 2 ^ s.val := Nat.two_pow_pos _
  have hside : g.side = 2 ^ (g.logSide - 1 - s) * (2 ^ s.val * 2) := by
    rw [Geometry.side, ← Nat.pow_succ, ← Nat.pow_add]
    congr 1
    omega
  have hhalf : g.half = 2 ^ (g.logSide - 1 - s) * 2 ^ s.val := by
    have := g.two_mul_half
    rw [hside, ← Nat.mul_assoc] at this
    omega
  have hq : b.val / 2 ^ s.val < 2 ^ (g.logSide - 1 - s) := by
    rw [Nat.div_lt_iff_lt_mul hh, ← hhalf]
    exact b.isLt
  have hr : b.val % 2 ^ s.val < 2 ^ s.val := Nat.mod_lt _ hh
  have hle : (b.val / 2 ^ s.val + 1) * (2 ^ s.val * 2) ≤ g.side :=
    hside ▸ Nat.mul_le_mul_right _ hq
  rw [Nat.add_mul, Nat.one_mul] at hle
  omega

/-- In a lane the first position is a place in a group, without wrapping around. -/
theorem first_eq (s : Fin g.logSide) (b : Fin g.half) :
    first s b = b.val / 2 ^ s.val * (2 ^ s.val * 2) + b.val % 2 ^ s.val := by
  have hlt := group_add_place_lt s b
  have hside := g.side_lt
  rw [first, Nat.mod_eq_of_lt (by omega)]

/-- In a lane the second position is `2 ^ stage` further on. -/
theorem second_eq (s : Fin g.logSide) (b : Fin g.half) :
    second s b = first s b + 2 ^ s.val := by
  have hlt := group_add_place_lt s b
  have hside := g.side_lt
  rw [second, first_eq, Nat.mod_eq_of_lt (by omega)]

/-- The second position lies in the lane. -/
theorem second_lt (s : Fin g.logSide) (b : Fin g.half) : second s b < g.side := by
  rw [second_eq, first_eq]
  exact group_add_place_lt s b

/-- The first position lies in the lane. -/
theorem first_lt (s : Fin g.logSide) (b : Fin g.half) : first s b < g.side :=
  Nat.lt_of_le_of_lt (Nat.le_add_right _ _) (second_eq s b ▸ second_lt s b)

/-- The two positions of a butterfly differ. -/
theorem first_ne_second (s : Fin g.logSide) (b : Fin g.half) : first s b ≠ second s b := by
  have hpos := Nat.two_pow_pos s.val
  rw [second_eq]
  omega

end Butterfly

/-! ### Lanes -/

/-- The word of a lane that is taken to a position: the bits of the position reversed. -/
def bitReversed (g : Geometry) (i : Fin g.side) : Fin g.side :=
  ⟨reverseBits i.val g.logSide, reverseBits_lt _ _⟩

/-- The two lane buffers of the datapath. -/
structure Lanes (g : Geometry) where
  lane : Vector UInt64 g.side
  permuted : Vector UInt64 g.side
deriving DecidableEq

namespace Lanes

variable {g : Geometry}

/-- Applies butterfly `b` of a stage to a buffer. -/
def combine (c : Channel) (t : Table) (h : t.Covers g) (s : Fin g.logSide)
    (v : Vector UInt64 g.side) (b : Fin g.half) : Vector UInt64 g.side :=
  have hp : Butterfly.first s b < g.side := Butterfly.first_lt s b
  have hr : Butterfly.second s b < g.side := Butterfly.second_lt s b
  let (low, high) :=
    c.butterfly v[Butterfly.first s b] v[Butterfly.second s b] (t.read h (.stage s b))
  (v.set (Butterfly.first s b) low).set (Butterfly.second s b) high

/-- Applies all butterflies of a stage. -/
def stage (c : Channel) (t : Table) (h : t.Covers g) (v : Vector UInt64 g.side)
    (s : Fin g.logSide) : Vector UInt64 g.side :=
  Fin.foldl g.half (combine c t h s) v

/-- The cyclic transform of the lane, in natural order. -/
def cyclicDft (c : Channel) (t : Table) (h : t.Covers g) (l : Lanes g) : Lanes g :=
  let permuted := scatter id (fun i => l.lane[bitReversed g i]) l.permuted
  let permuted := Fin.foldl g.logSide (stage c t h) permuted
  { lane := permuted, permuted }

end Lanes

end RnsEngine
