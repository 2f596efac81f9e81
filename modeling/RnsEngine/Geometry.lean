import RnsEngine.Fault
import RnsEngine.Word.Bits

/-!
# Sizes of the engine

The coefficients of one channel form a square tile, and the engine holds a fixed number of
tiles. `Geometry` fixes both: the side of a tile is a power of two, at least four, whose
square doubled is still a 64-bit word, and there is room for at least one tile. All other
sizes follow. `Geometry.ofSide` accepts exactly the admissible pairs (`ofSide_eq_ok_iff`,
`exists_ofSide_iff`) and names the first reason against the others (`ofSide_eq_error_iff`).
-/

namespace RnsEngine

/-- The exponent of the tile side and the number of tiles in a bank. -/
structure Geometry where
  logSide : Nat
  capacity : Nat
  two_le_logSide : 2 ≤ logSide
  logSide_le : logSide ≤ 31
  capacity_pos : 0 < capacity
deriving DecidableEq

namespace Geometry

/-- The smallest side for which the twiddle layout fits its table. -/
def minSide : Nat := 4

/-- The side of a tile. -/
def side (g : Geometry) : Nat := 2 ^ g.logSide

/-- The number of coefficients of one channel. -/
def ringDim (g : Geometry) : Nat := g.side * g.side

/-- The binary logarithm of the ring dimension. -/
def logRingDim (g : Geometry) : Nat := 2 * g.logSide

/-- The number of butterflies of a stage. -/
def half (g : Geometry) : Nat := g.side / 2

/-- The order of the roots of unity: the coefficients are those of polynomials modulo
`X ^ ringDim + 1`, where `X` has this order. -/
def order (g : Geometry) : Nat := 2 * g.ringDim

/-- The number of words of a twiddle table. -/
def tableSize (g : Geometry) : Nat := g.half * g.ringDim

/-- The number of coefficients in so many channels. -/
def words (g : Geometry) (channels : Nat) : Nat := channels * g.ringDim

/-! ### Admissible sizes -/

/-- A power of two that is at least four has an exponent of at least two. -/
theorem two_le_of_minSide_le {log side : Nat} (hside : side = 2 ^ log) (h : minSide ≤ side) :
    2 ≤ log := by
  match log with
  | 0 => simp [hside, minSide] at h
  | 1 => simp [hside, minSide] at h
  | log + 2 => omega

/-- A power of two whose doubled square is a word has an exponent of at most 31. -/
theorem le_of_square_lt {log side : Nat} (hside : side = 2 ^ log)
    (h : 2 * (side * side) < 2 ^ 64) : log ≤ 31 := by
  refine Nat.le_of_not_lt fun hlog => ?_
  have hle : 2 ^ 32 ≤ side := hside ▸ Nat.pow_le_pow_right (by decide) hlog
  have hsq : 2 ^ 32 * 2 ^ 32 ≤ side * side := Nat.mul_le_mul hle hle
  omega

/-- The geometry of tiles with the given side. -/
def ofSide (side capacity : Nat) : Except Fault Geometry :=
  match hlog : exactLog? side with
  | none => .error (.notPowerOfTwo side)
  | some log =>
    if hmin : side < minSide then .error (.sideTooSmall side minSide)
    else if hmax : 2 ^ 64 ≤ 2 * (side * side) then .error (.ringDimOverflow side)
    else if hcap : capacity = 0 then .error .noChannels
    else .ok
      { logSide := log
        capacity := capacity
        two_le_logSide :=
          two_le_of_minSide_le (eq_two_pow_of_exactLog hlog) (Nat.le_of_not_lt hmin)
        logSide_le := le_of_square_lt (eq_two_pow_of_exactLog hlog) (Nat.lt_of_not_le hmax)
        capacity_pos := Nat.pos_of_ne_zero hcap }

/-! ### Relations between the sizes -/

/-- The side is positive. -/
theorem side_pos (g : Geometry) : 0 < g.side := Nat.two_pow_pos g.logSide

/-- The side is at least four. -/
theorem four_le_side (g : Geometry) : 4 ≤ g.side :=
  Nat.pow_le_pow_right (n := 2) (by decide) g.two_le_logSide

/-- The side is a word. -/
theorem side_lt (g : Geometry) : g.side < 2 ^ 64 :=
  Nat.pow_lt_pow_right (by decide) (Nat.lt_of_le_of_lt g.logSide_le (by decide))

/-- The exponent is below the number of bits of a word. -/
theorem logSide_lt (g : Geometry) : g.logSide < 64 :=
  Nat.lt_of_le_of_lt g.logSide_le (by decide)

/-- A place on the side is a word. -/
theorem toNat_ofNat_place (g : Geometry) (k : Fin g.side) : (UInt64.ofNat k.val).toNat = k.val :=
  UInt64.toNat_ofNat_of_lt' (Nat.lt_trans k.isLt g.side_lt)

/-- The exponent is below the side. -/
theorem logSide_lt_side (g : Geometry) : g.logSide < g.side := Nat.lt_two_pow_self

/-- The side is twice the number of butterflies. -/
theorem two_mul_half (g : Geometry) : 2 * g.half = g.side := by
  obtain ⟨k, hk⟩ := Nat.exists_eq_add_of_le g.two_le_logSide
  rw [half, side, hk, Nat.pow_add, show 2 ^ 2 * 2 ^ k = 2 * (2 * 2 ^ k) by omega,
    Nat.mul_div_cancel_left _ (by decide)]

/-- The number of butterflies is a word. -/
theorem half_lt (g : Geometry) : g.half < 2 ^ 64 :=
  Nat.lt_of_le_of_lt (Nat.div_le_self _ _) g.side_lt

/-- The number of butterflies is positive. -/
theorem half_pos (g : Geometry) : 0 < g.half := by
  have h := g.two_mul_half
  have := g.side_pos
  omega

/-- The ring dimension is positive. -/
theorem ringDim_pos (g : Geometry) : 0 < g.ringDim := Nat.mul_pos g.side_pos g.side_pos

/-- The ring dimension is a power of two. -/
theorem ringDim_eq (g : Geometry) : g.ringDim = 2 ^ g.logRingDim := by
  rw [ringDim, side, logRingDim, ← Nat.pow_add, Nat.two_mul]

/-- The order is a power of two. -/
theorem order_eq (g : Geometry) : g.order = 2 ^ (g.logRingDim + 1) := by
  rw [order, ringDim_eq, Nat.pow_succ']

/-- The order is greater than one. -/
theorem one_lt_order (g : Geometry) : 1 < g.order :=
  Nat.lt_of_lt_of_le Nat.one_lt_two (Nat.mul_le_mul_left 2 g.ringDim_pos)

/-- Twice the ring dimension is a word. -/
theorem order_lt (g : Geometry) : g.order < 2 ^ 64 := by
  have hpow : 2 ^ g.logRingDim ≤ 2 ^ 62 :=
    Nat.pow_le_pow_right (by decide) (by have := g.logSide_le; simp only [logRingDim]; omega)
  rw [order, ringDim_eq]
  omega

/-- The ring dimension is a word. -/
theorem ringDim_lt (g : Geometry) : g.ringDim < 2 ^ 64 :=
  Nat.lt_of_le_of_lt (Nat.le_mul_of_pos_left _ (by decide)) g.order_lt

/-- The word of the ring dimension is the ring dimension. -/
theorem toNat_ringDim (g : Geometry) : (UInt64.ofNat g.ringDim).toNat = g.ringDim :=
  UInt64.toNat_ofNat_of_lt' g.ringDim_lt

/-! ### Accepted and refused sizes -/

/-- A side and a number of tiles are those of a geometry when the side is a power of two, neither
too small nor too large, and there is room for a tile. -/
theorem exists_sizes_iff {side capacity : Nat} :
    (∃ g : Geometry, g.side = side ∧ g.capacity = capacity) ↔
      side.isPowerOfTwo ∧ minSide ≤ side ∧ 2 * (side * side) < 2 ^ 64 ∧ 0 < capacity := by
  constructor
  · rintro ⟨g, rfl, rfl⟩
    exact ⟨⟨g.logSide, rfl⟩, g.four_le_side, g.order_lt, g.capacity_pos⟩
  · rintro ⟨⟨log, rfl⟩, hmin, hmax, hcapacity⟩
    exact ⟨⟨log, capacity, two_le_of_minSide_le rfl hmin, le_of_square_lt rfl hmax, hcapacity⟩,
      rfl, rfl⟩

/-- What is wrong with a side and a number of tiles, in the order in which it counts. -/
def reasons (side capacity : Nat) : List Fault :=
  (if side.isPowerOfTwo then [] else [.notPowerOfTwo side]) ++
    (if minSide ≤ side then [] else [.sideTooSmall side minSide]) ++
    (if 2 * (side * side) < 2 ^ 64 then [] else [.ringDimOverflow side]) ++
    (if 0 < capacity then [] else [.noChannels])

/-- Nothing is wrong with the sizes of a geometry, and with no others. -/
theorem reasons_eq_nil_iff {side capacity : Nat} :
    reasons side capacity = [] ↔ ∃ g : Geometry, g.side = side ∧ g.capacity = capacity := by
  rw [exists_sizes_iff]
  simp [reasons, Nat.pos_iff_ne_zero]

/-- A pair of sizes is refused for the first thing that is wrong with it. -/
theorem ofSide_eq_error_iff {side capacity : Nat} {fault : Fault} :
    ofSide side capacity = .error fault ↔ (reasons side capacity).head? = some fault := by
  unfold ofSide
  split
  · next hlog => simp [reasons, exactLog?_eq_none_iff.1 hlog]
  · next log hlog =>
    have hpower : side.isPowerOfTwo := ⟨log, exactLog?_eq_some_iff.1 hlog⟩
    split
    · next hmin => simp [reasons, hpower, Nat.not_le.2 hmin]
    · next hmin =>
      split
      · next hmax => simp [reasons, hpower, Nat.not_lt.1 hmin, Nat.not_lt.2 hmax]
      · next hmax =>
        split
        · next hcap => simp [reasons, hpower, Nat.not_lt.1 hmin, Nat.not_le.1 hmax, hcap]
        · next hcap =>
          simp [reasons, hpower, Nat.not_lt.1 hmin, Nat.not_le.1 hmax, Nat.pos_of_ne_zero hcap]

/-- A geometry is found again from its sizes. -/
theorem ofSide_side (g : Geometry) : ofSide g.side g.capacity = .ok g := by
  have hpower : exactLog? g.side = some g.logSide := exactLog?_eq_some_iff.2 rfl
  have hmin : ¬ g.side < minSide := Nat.not_lt.2 g.four_le_side
  have hmax : ¬ 2 ^ 64 ≤ 2 * (g.side * g.side) := Nat.not_le.2 g.order_lt
  unfold ofSide
  -- The match keeps its equation, so the exponent is identified instead of rewritten.
  split
  · next hlog => cases hlog.symm.trans hpower
  · next log hlog =>
    obtain rfl : log = g.logSide := Option.some.inj (hlog.symm.trans hpower)
    rw [dif_neg hmin, dif_neg hmax, dif_neg (Nat.ne_of_gt g.capacity_pos)]

/-- A geometry is given out exactly for the sizes that it has. -/
theorem ofSide_eq_ok_iff {side capacity : Nat} {g : Geometry} :
    ofSide side capacity = .ok g ↔ g.side = side ∧ g.capacity = capacity := by
  refine ⟨fun h => ?_, fun ⟨hside, hcapacity⟩ => hside ▸ hcapacity ▸ g.ofSide_side⟩
  -- Nothing is wrong with accepted sizes, so they are those of a geometry, which is found again.
  have hnone : reasons side capacity = [] :=
    List.head?_eq_none_iff.1 <| Option.eq_none_iff_forall_ne_some.2 fun fault hfault => by
      cases h.symm.trans (ofSide_eq_error_iff.2 hfault)
  obtain ⟨g', rfl, rfl⟩ := reasons_eq_nil_iff.1 hnone
  obtain rfl : g' = g := Except.ok.inj (g'.ofSide_side.symm.trans h)
  exact ⟨rfl, rfl⟩

/-- The admissible pairs of sizes, and no others, are accepted. -/
theorem exists_ofSide_iff {side capacity : Nat} :
    (∃ g, ofSide side capacity = .ok g) ↔
      side.isPowerOfTwo ∧ minSide ≤ side ∧ 2 * (side * side) < 2 ^ 64 ∧ 0 < capacity := by
  simp only [ofSide_eq_ok_iff, exists_sizes_iff]

end Geometry

end RnsEngine
