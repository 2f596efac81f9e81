import Mathlib.Data.List.FinRange
import Mathlib.Data.List.Flatten
import Mathlib.Data.Vector.Basic
import Mathlib.Tactic.NormNum.Prime
import RnsEngine.Proofs.Fold
import RnsEngine.Proofs.Twiddle.Factors
import RnsEngine.Tile.Basic

/-!
# Filling a twiddle table

A table is filled by three loops, over the butterflies of the stages, over the rows, and over the
entries between the passes. They write to one flat table at places that are computed with words,
by division and remainder, and a place that two of them shared would keep only what was written
last. Here the loops are written out as programs that give up on a place past the end of the table
and on a place that has been written before (`Table.fillOnce`). As long as the size of a table is a
word, which is so for sides of at most `2 ^ 21`, they do not give up: every write preserves that
the marked places are those of the factors so far (`Table.writeOnce_marked`), as the places are
distinct.

From this follows what all words of a derived table are, `Table.Entries`: the powers of the root
of its direction at the places of the factors, and zeros between them.
-/

namespace RnsEngine

/-! ### Sizes -/

namespace Geometry

/-- The size of a table is half the third power of the side. -/
theorem two_mul_tableSize (g : Geometry) : 2 * g.tableSize = 2 ^ (3 * g.logSide) := by
  rw [tableSize, ← Nat.mul_assoc, two_mul_half, ringDim, side, ← Nat.pow_add, ← Nat.pow_add]
  congr 1
  omega

/-- The size of a table is a word for sides of at most `2 ^ 21`. -/
theorem tableSize_lt_iff (g : Geometry) : g.tableSize < 2 ^ 64 ↔ g.side ≤ 2 ^ 21 := by
  have hdouble : g.tableSize < 2 ^ 64 ↔ 2 ^ (3 * g.logSide) < 2 ^ 65 := by
    rw [← two_mul_tableSize]
    omega
  rw [hdouble, side, Nat.pow_lt_pow_iff_right Nat.one_lt_two,
    Nat.pow_le_pow_iff_right Nat.one_lt_two]
  omega

end Geometry

/-! ### Places and exponents in words -/

namespace Layout

/-- The place of the factor of a butterfly, computed with words. -/
def stageWord (g : Geometry) (stage b : UInt64) : UInt64 := b * .ofNat g.ringDim + stage

/-- The place of the factor of a row, computed with words. -/
def twistWord (g : Geometry) (row : UInt64) : UInt64 :=
  row % .ofNat g.half * .ofNat g.ringDim + .ofNat g.logSide + row / .ofNat g.half

/-- The place of the factor of an entry between the passes, computed with words. -/
def passWord (g : Geometry) (row column : UInt64) : UInt64 :=
  let entry := row * .ofNat g.side + column
  entry % .ofNat g.half * .ofNat g.ringDim + .ofNat g.logSide + 2 + entry / .ofNat g.half

end Layout

namespace Slot

variable {g : Geometry}

/-- The place of a factor, computed with words. -/
def word : Slot g → UInt64
  | stage s b => Layout.stageWord g (.ofNat s) (.ofNat b)
  | twist row => Layout.twistWord g (.ofNat row)
  | pass row column => Layout.passWord g (.ofNat row) (.ofNat column)

/-- Computed with words, a place is the word of the place. -/
theorem word_eq (s : Slot g) : s.word = .ofNat s.index := by
  cases s with
  | stage s b =>
    rw [word, Layout.stageWord, index, Layout.stageIndex, UInt64.ofNat_add, UInt64.ofNat_mul]
  | twist row =>
    have hrow := Nat.lt_trans row.isLt g.side_lt
    rw [word, Layout.twistWord, index, Layout.twistIndex, UInt64.ofNat_add, UInt64.ofNat_add,
      UInt64.ofNat_mul, UInt64.ofNat_mod hrow g.half_lt, UInt64.ofNat_div hrow g.half_lt]
  | pass row column =>
    have hentry := Nat.lt_trans (Tile.index_lt row column) g.ringDim_lt
    simp only [word, Layout.passWord, index, Layout.passIndex]
    rw [UInt64.ofNat_add, UInt64.ofNat_add, UInt64.ofNat_add, UInt64.ofNat_mul,
      UInt64.ofNat_mod hentry g.half_lt, UInt64.ofNat_div hentry g.half_lt, UInt64.ofNat_add,
      UInt64.ofNat_mul]
    rfl

/-- No place wraps around, as long as the size of a table is a word. -/
theorem toNat_word (hsize : g.tableSize < 2 ^ 64) (s : Slot g) : s.word.toNat = s.index := by
  rw [word_eq, UInt64.toNat_ofNat_of_lt' (Nat.lt_trans s.index_lt hsize)]

/-! ### All factors, once -/

/-- Row by row, factors with two different numbers are listed once each. -/
theorem nodup_rows {m n : ℕ} {f : Fin m → Fin n → Slot g} (hf : Function.Injective2 f) :
    ((List.finRange m).flatMap fun i => (List.finRange n).map (f i)).Nodup := by
  refine List.nodup_flatMap.2 ⟨fun i _ => (List.nodup_finRange n).map fun _ _ h => (hf h).2,
    (List.nodup_finRange m).imp fun hne => ?_⟩
  simp only [Function.onFun, List.disjoint_left, List.mem_map]
  rintro _ ⟨j, -, rfl⟩ ⟨j', -, h⟩
  exact hne (hf h).1.symm

/-- No factor is listed twice. -/
theorem nodup_all (g : Geometry) : (all g).Nodup := by
  have hstages : (stages g).Nodup := nodup_rows fun _ _ _ _ => stage.inj
  have htwists : (twists g).Nodup := (List.nodup_finRange _).map fun _ _ => twist.inj
  have hpasses : (passes g).Nodup := nodup_rows fun _ _ _ _ => pass.inj
  refine List.nodup_append.2 ⟨hstages, List.nodup_append.2 ⟨htwists, hpasses, ?_⟩, ?_⟩
  · simp only [twists, passes, List.mem_map, List.mem_flatMap]
    rintro _ ⟨row, -, rfl⟩ _ ⟨row', -, column', -, rfl⟩ h
    cases h
  · simp only [stages, twists, passes, List.mem_append, List.mem_map, List.mem_flatMap]
    rintro _ ⟨s, -, b, -, rfl⟩ _ (⟨row, -, rfl⟩ | ⟨row, -, column, -, rfl⟩) h <;> cases h

/-- No place is listed twice. -/
theorem nodup_index (g : Geometry) : ((all g).map index).Nodup :=
  (nodup_all g).map fun _ _ => index_injective

end Slot

namespace Table

variable {g : Geometry} {c : Channel}

/-- The exponent of a factor, computed with words. -/
def exponentWord : Slot g → UInt64
  | .stage s b =>
    let span : UInt64 := 1 <<< UInt64.ofNat s
    let stride := UInt64.ofNat g.side / (span <<< 1)
    2 * UInt64.ofNat g.side * (UInt64.ofNat b &&& (span - 1)) * stride
  | .twist row => .ofNat g.side * .ofNat row
  | .pass row column => .ofNat column * (2 * .ofNat row + 1)

/-- Computed with words, an exponent is the word of the exponent. -/
theorem exponentWord_eq (slot : Slot g) : exponentWord slot = .ofNat (exponent slot) := by
  cases slot with
  | stage s b =>
    have hs : s.val + 1 < 63 :=
      Nat.lt_of_le_of_lt s.isLt (Nat.lt_of_le_of_lt g.logSide_le (by decide))
    have hspan := toNat_one_shiftLeft (Nat.lt_trans (Nat.lt_of_succ_lt hs) (by decide : 63 < 64))
    have hdouble : (((1 : UInt64) <<< UInt64.ofNat s.val) <<< (1 : UInt64)).toNat =
        2 ^ (s.val + 1) := by
      rw [toNat_shiftLeft_one (by rw [hspan]; exact Nat.pow_lt_pow_right (by decide) (by omega)),
        hspan, Nat.pow_succ']
    have hmask := toNat_and_pred hspan (.ofNat b.val)
    rw [hspan, UInt64.toNat_ofNat_of_lt' (Nat.lt_trans b.isLt g.half_lt)] at hmask
    have hlt : 2 ^ (s.val + 1) < 2 ^ 64 := Nat.pow_lt_pow_right (by decide) (by omega)
    simp only [exponentWord, exponent]
    rw [UInt64.ofNat_mul, UInt64.ofNat_mul, UInt64.ofNat_mul, UInt64.ofNat_div g.side_lt hlt,
      ← hmask, ← hdouble, UInt64.ofNat_toNat, UInt64.ofNat_toNat]
    rfl
  | twist row => exact (UInt64.ofNat_mul _ _).symm
  | pass row column =>
    rw [exponentWord, exponent, UInt64.ofNat_mul, UInt64.ofNat_add, UInt64.ofNat_mul]
    rfl

/-- An exponent is below the order of the root. -/
theorem exponent_lt (slot : Slot g) : exponent slot < g.order := by
  have hside := g.side_pos
  cases slot with
  | stage s b =>
    -- the span times the quotient is the side, and the remainder is below the span
    have hmod : b.val % 2 ^ s.val < 2 ^ (s.val + 1) :=
      Nat.lt_of_lt_of_le (Nat.mod_lt _ (Nat.two_pow_pos _))
        (Nat.pow_le_pow_right Nat.two_pos (Nat.le_succ _))
    have hquotient : 0 < g.side / 2 ^ (s.val + 1) :=
      Nat.div_pos (Nat.pow_le_pow_right Nat.two_pos s.isLt) (Nat.two_pow_pos _)
    calc 2 * g.side * (b.val % 2 ^ s.val) * (g.side / 2 ^ (s.val + 1))
        < 2 * g.side * 2 ^ (s.val + 1) * (g.side / 2 ^ (s.val + 1)) :=
          Nat.mul_lt_mul_of_pos_right (Nat.mul_lt_mul_of_pos_left hmod (by omega)) hquotient
      _ ≤ 2 * g.side * g.side := by
          rw [Nat.mul_assoc]
          exact Nat.mul_le_mul_left _ (Nat.mul_div_le _ _)
      _ = g.order := by rw [Geometry.order, Geometry.ringDim, Nat.mul_assoc]
  | twist row =>
    calc g.side * row.val < g.side * g.side := Nat.mul_lt_mul_of_pos_left row.isLt hside
      _ ≤ g.order := Nat.le_mul_of_pos_left _ Nat.two_pos
  | pass row column =>
    calc column.val * (2 * row.val + 1) ≤ column.val * (2 * g.side) :=
          Nat.mul_le_mul_left _ (by omega)
      _ < g.side * (2 * g.side) := Nat.mul_lt_mul_of_pos_right column.isLt (by omega)
      _ = g.order := by rw [Geometry.order, Geometry.ringDim, Nat.mul_left_comm]

/-- No exponent wraps around. -/
theorem toNat_exponentWord (slot : Slot g) : (exponentWord slot).toNat = exponent slot := by
  rw [exponentWord_eq, UInt64.toNat_ofNat_of_lt' (Nat.lt_trans (exponent_lt slot) g.order_lt)]

/-! ### Writing every place once -/

/-- Writes a word to a place that must exist and must not have been written before. -/
def writeOnce {n : ℕ} (marks : Vector (Option UInt64) n) (k : ℕ) (x : UInt64) :
    Option (Vector (Option UInt64) n) :=
  if h : k < n ∧ marks[k]? = some none then some (marks.set k (some x) h.1) else none

/-- Fills a table in three loops, which give up when a place is past the end or written twice. -/
def fillOnce (g : Geometry) (value : Slot g → UInt64) :
    Option (Vector (Option UInt64) g.tableSize) := do
  let marks ← Fin.foldlM g.logSide (fun marks s => Fin.foldlM g.half (fun marks b =>
    writeOnce marks (Slot.stage s b).word.toNat (value (.stage s b))) marks)
    (Vector.replicate _ none)
  let marks ← Fin.foldlM g.side (fun marks row =>
    writeOnce marks (Slot.twist row).word.toNat (value (.twist row))) marks
  Fin.foldlM g.side (fun marks row => Fin.foldlM g.side (fun marks column =>
    writeOnce marks (Slot.pass row column).word.toNat (value (.pass row column))) marks) marks

/-- The words at the places of the factors of a list, and no others. -/
def marked (value : Slot g → UInt64) (slots : List (Slot g)) :
    Vector (Option UInt64) g.tableSize :=
  Vector.ofFn fun k => (slots.find? fun s => s.index = k.val).map value

section Writing

variable {value : Slot g → UInt64} {slots : List (Slot g)} {s : Slot g}

/-- The place of a factor leads back to it. -/
theorem find?_index (hs : s ∈ slots) : (slots.find? fun t => t.index = s.index) = some s := by
  cases hfind : slots.find? fun t => t.index = s.index with
  | none => exact absurd (decide_eq_true rfl) (List.find?_eq_none.1 hfind s hs)
  | some t =>
    have ht : t.index = s.index := by simpa using List.find?_some hfind
    rw [Slot.index_injective ht]

/-- No place of other factors leads to a factor. -/
theorem find?_index_eq_none (hs : s ∉ slots) :
    (slots.find? fun t => t.index = s.index) = none := by
  refine List.find?_eq_none.2 fun t ht => ?_
  rw [decide_eq_true_eq]
  exact fun h => hs (Slot.index_injective h ▸ ht)

/-- A factor that has not been written is written to its place. -/
theorem writeOnce_marked (hs : s ∉ slots) :
    writeOnce (marked value slots) s.index (value s) = some (marked value (slots ++ [s])) := by
  have hfree : (marked value slots)[s.index]? = some none := by
    rw [Vector.getElem?_eq_getElem s.index_lt, marked, Vector.getElem_ofFn,
      find?_index_eq_none hs]
    rfl
  rw [writeOnce, dif_pos ⟨s.index_lt, hfree⟩]
  refine congrArg some (Vector.ext fun k hk => ?_)
  rw [Vector.getElem_set, marked, marked, Vector.getElem_ofFn, Vector.getElem_ofFn,
    List.find?_append]
  by_cases h : s.index = k
  · subst h
    simp [find?_index_eq_none hs]
  · simp [h]

/-- The factors of a list are written one after the other. -/
theorem foldlM_writeOnce (rest : List (Slot g)) (hnodup : (slots ++ rest).Nodup) :
    rest.foldlM (fun marks s => writeOnce marks s.index (value s)) (marked value slots) =
      some (marked value (slots ++ rest)) := by
  -- what has been written grows by the head of what is left
  induction rest generalizing slots with
  | nil => rw [List.append_nil]; rfl
  | cons s rest ih =>
    have hs : s ∉ slots := fun hmem =>
      List.disjoint_of_nodup_append hnodup hmem List.mem_cons_self
    rw [List.append_cons] at hnodup ⊢
    rw [List.foldlM_cons, writeOnce_marked hs]
    exact ih hnodup

/-- The three loops write the factors in the order of the list of all of them. -/
theorem fillOnce_eq_foldlM (g : Geometry) (value : Slot g → UInt64) :
    fillOnce g value = (Slot.all g).foldlM
      (fun marks s => writeOnce marks s.word.toNat (value s)) (Vector.replicate _ none) := by
  simp only [fillOnce, Slot.all, Slot.stages, Slot.twists, Slot.passes, List.foldlM_append,
    foldlM_flatMap, List.foldlM_map, Fin.foldlM_eq_foldlM_finRange]

/-- The three loops write every factor to its place, as long as the size of a table is a word. -/
theorem fillOnce_eq (hsize : g.tableSize < 2 ^ 64) (value : Slot g → UInt64) :
    fillOnce g value = some (marked value (Slot.all g)) := by
  have hempty : Vector.replicate g.tableSize none = marked value [] := by
    ext k hk
    simp [marked]
  simp only [fillOnce_eq_foldlM, Slot.toNat_word hsize]
  rw [hempty]
  exact foldlM_writeOnce _ (Slot.nodup_all g)

/-- A place that belongs to none of the factors is not written. -/
theorem getElem_foldl_set_of_ne {k : ℕ} (hk : k < g.tableSize) (hne : ∀ s : Slot g, s.index ≠ k)
    (words : Vector UInt64 g.tableSize) :
    getElem (slots.foldl (fun words s => words.set s.index (value s) s.index_lt) words) k hk =
      getElem words k hk := by
  induction slots generalizing words with
  | nil => rfl
  | cons s slots ih => rw [List.foldl_cons, ih, Vector.getElem_set_ne _ _ (hne s)]

/-- A filled table has what was marked, and zeros between. -/
theorem fill_eq (value : Slot g → UInt64) :
    fill g value = (marked value (Slot.all g)).map (·.getD 0) := by
  refine Vector.ext fun k hk => ?_
  rw [Vector.getElem_map, marked, Vector.getElem_ofFn]
  by_cases hplace : ∃ s : Slot g, s.index = k
  · obtain ⟨s, rfl⟩ := hplace
    have hfill := getElem_foldl_set value s (Slot.all g) (Vector.replicate g.tableSize 0)
    rw [if_pos s.mem_all] at hfill
    rw [find?_index s.mem_all]
    exact hfill
  · have hne := not_exists.1 hplace
    have hnone : ((Slot.all g).find? fun s => s.index = k) = none := by
      simpa [List.find?_eq_none] using fun s _ => hne s
    rw [hnone, fill, getElem_foldl_set_of_ne hk hne, Vector.getElem_replicate]
    rfl

end Writing

/-! ### The entries of a derived table -/

/-- A table has at an index a reduced word that stands for a residue. -/
def Holds (t : Table) (c : Channel) (index : ℕ) (x : ZMod c.modulus.toNat) : Prop :=
  ∃ w, t.get? index = some w ∧ w < c.modulus ∧ c.residue w = x

/-- The words of a table are the powers of a root, in the twist scaled ones, and zeros between. -/
structure Entries (t : Table) (g : Geometry) (c : Channel) (root scale : ZMod c.modulus.toNat) :
    Prop where
  stage : ∀ s < g.logSide, ∀ b < g.half, t.Holds c (Layout.stageIndex g s b)
    (root ^ (2 * g.side * (b % 2 ^ s) * (g.side / 2 ^ (s + 1))))
  twist : ∀ row < g.side, t.Holds c (Layout.twistIndex g row) (root ^ (g.side * row) * scale)
  pass : ∀ row < g.side, ∀ column < g.side,
    t.Holds c (Layout.passIndex g row column) (root ^ (column * (2 * row + 1)))
  rest : ∀ k < g.tableSize, (∀ s : Slot g, s.index ≠ k) → t.get? k = some 0

/-- The words of a table with the powers of a root. -/
theorem Powers.entries {t : Table} {h : t.Covers g} {root scale : ZMod c.modulus.toNat}
    (ht : t.Powers h c root scale)
    (hrest : ∀ k < g.tableSize, (∀ s : Slot g, s.index ≠ k) → t.get? k = some 0) :
    t.Entries g c root scale where
  stage s hs b hb := ⟨_, t.get?_index h (.stage ⟨s, hs⟩ ⟨b, hb⟩), ht.read_lt _, ht.stage _ _⟩
  twist row hrow := ⟨_, t.get?_index h (.twist ⟨row, hrow⟩), ht.read_lt _, ht.twist _⟩
  pass row hrow column hcolumn :=
    ⟨_, t.get?_index h (.pass ⟨row, hrow⟩ ⟨column, hcolumn⟩), ht.read_lt _, ht.pass _ _⟩
  rest := hrest

/-- A derived table has zeros between its factors. -/
theorem get?_of_ofRoot {psi : UInt64} {direction : Direction} {t : Table}
    (h : ofRoot g c psi direction = .ok t) {k : ℕ} (hk : k < g.tableSize)
    (hne : ∀ s : Slot g, s.index ≠ k) : t.get? k = some 0 := by
  obtain ⟨root, scale, -, rfl⟩ := exists_ofFactors_of_ofRoot h
  have hsize : k < (ofFactors g c direction root scale).words.size :=
    (ofFactors_fits g c direction root scale).2.symm ▸ hk
  rw [get?, Array.getElem?_eq_getElem hsize]
  refine congrArg some ((getElem_foldl_set_of_ne hk hne _).trans ?_)
  exact Vector.getElem_replicate hk

end Table

/-- The root whose powers the tables of a direction hold. -/
def Direction.root {q : ℕ} : Direction → ZMod q → ZMod q
  | .forward, psi => psi
  | .inverse, psi => psi⁻¹

/-- What the tables of a direction scale the twist by. -/
def Direction.scale (g : Geometry) (q : ℕ) : Direction → ZMod q
  | .forward => 1
  | .inverse => (g.ringDim : ZMod q)⁻¹

namespace Table

variable {g : Geometry} {c : Channel} {psi : UInt64} {direction : Direction} {t : Table}

/-- A table is derived from nothing but a root. -/
theorem pow_eq_neg_one_of_ofRoot (h : ofRoot g c psi direction = .ok t) :
    c.residue psi ^ g.ringDim = -1 := by
  simp only [ofRoot] at h
  split at h
  · next hroot => rwa [isRoot_iff, c.residue_mod] at hroot
  · cases h

/-- Modulo a prime, the tables of a direction are derived from the roots, the inverse ones where the
ring dimension does not vanish. -/
theorem exists_ofRoot_iff (hq : c.modulus.toNat.Prime) :
    (∃ t, ofRoot g c psi direction = .ok t) ↔ c.residue psi ^ g.ringDim = -1 ∧
      (direction = .inverse → (g.ringDim : ZMod c.modulus.toNat) ≠ 0) := by
  constructor
  · rintro ⟨t, h⟩
    refine ⟨pow_eq_neg_one_of_ofRoot h, ?_⟩
    rintro rfl
    exact (ofRoot_inverse_eq_ok h).1
  · rintro ⟨hpsi, hdim⟩
    cases direction with
    | forward => exact exists_ofRoot_forward hpsi
    | inverse =>
      obtain ⟨t, -, -, h, -⟩ := exists_ofRoot_inverse hq hpsi (hdim rfl)
      exact ⟨t, h⟩

/-- Modulo a prime, the words of a derived table are the powers of the root of its direction. -/
theorem entries_of_ofRoot (hq : c.modulus.toNat.Prime) (h : ofRoot g c psi direction = .ok t) :
    t.Entries g c (direction.root (c.residue psi)) (direction.scale g _) := by
  have := Fact.mk hq
  have hcovers := (fits_of_ofRoot h).covers
  refine Powers.entries (h := hcovers) ?_ fun k hk hne => get?_of_ofRoot h hk hne
  cases direction with
  | forward => exact (ofRoot_forward_eq_ok h).2.2 hcovers
  | inverse =>
    obtain ⟨t', root, scale, h', hroot, hscale, -, hpowers⟩ :=
      exists_ofRoot_inverse hq (pow_eq_neg_one_of_ofRoot h) (ofRoot_inverse_eq_ok h).1
    obtain rfl := Except.ok.inj (h'.symm.trans h)
    rw [Direction.root, Direction.scale, ← eq_inv_of_mul_eq_one_left hroot,
      ← eq_inv_of_mul_eq_one_left hscale]
    exact hpowers hcovers

/-- **The layout of a table and its entries.** The factors have distinct places within the table,
all are written, and none twice; no place and no exponent that is computed with words wraps around,
as long as the size of a table is a word, and the loops that fill the table overwrite nothing.
Modulo a prime a table is derived from every root, backwards unless the modulus divides the ring
dimension, and its words are the powers of the root or of its inverse. -/
theorem layout_entries (g : Geometry) :
    Function.Injective (Slot.index : Slot g → ℕ) ∧ (∀ s : Slot g, s.index < g.tableSize) ∧
    ((Slot.all g).map Slot.index).Nodup ∧ (∀ s : Slot g, s ∈ Slot.all g) ∧
    g.logSide + 2 + 2 * g.side ≤ g.ringDim ∧
    (∀ s : Slot g, (exponentWord s).toNat = exponent s) ∧
    (g.tableSize < 2 ^ 64 ↔ g.side ≤ 2 ^ 21) ∧
    (g.tableSize < 2 ^ 64 → (∀ s : Slot g, s.word.toNat = s.index) ∧
      ∀ value : Slot g → UInt64, ∃ marks, fillOnce g value = some marks ∧
        fill g value = marks.map (·.getD 0)) ∧
    ∀ (c : Channel) (psi : UInt64) (direction : Direction), c.modulus.toNat.Prime →
      ((∃ t, ofRoot g c psi direction = .ok t) ↔ c.residue psi ^ g.ringDim = -1 ∧
        (direction = .inverse → (g.ringDim : ZMod c.modulus.toNat) ≠ 0)) ∧
      ∀ t, ofRoot g c psi direction = .ok t →
        t.Entries g c (direction.root (c.residue psi)) (direction.scale g _) :=
  ⟨fun _ _ => Slot.index_injective, Slot.index_lt, Slot.nodup_index g, Slot.mem_all,
    Layout.width_le_ringDim g, toNat_exponentWord, g.tableSize_lt_iff,
    fun hsize => ⟨Slot.toNat_word hsize, fun value => ⟨_, fillOnce_eq hsize value, fill_eq value⟩⟩,
    fun _ _ _ hq => ⟨exists_ofRoot_iff hq, fun _ => entries_of_ofRoot hq⟩⟩

/-- The tables of the root `19` modulo `97`, for tiles with four rows. -/
theorem layout_entries_ninety_seven :
    ∃ (g : Geometry) (c : Channel) (t t' : Table), g.side = 4 ∧ c.modulus = 97 ∧
      (∃ marks, fillOnce g (factor c 19 1) = some marks) ∧
      ofRoot g c 19 .forward = .ok t ∧ t.Entries g c (c.residue 19) 1 ∧
      ofRoot g c 19 .inverse = .ok t' ∧
        t'.Entries g c (c.residue 19)⁻¹ (g.ringDim : ZMod c.modulus.toNat)⁻¹ := by
  let g : Geometry := ⟨2, 1, by decide, by decide, by decide⟩
  let c : Channel := ⟨97, Barrett.ofModulus 97, by decide, by decide, rfl⟩
  have hprime : c.modulus.toNat.Prime := by
    have hvalue : c.modulus.toNat = 97 := rfl
    rw [hvalue]
    norm_num
  have hroot : c.residue 19 ^ g.ringDim = -1 := (isRoot_iff g c 19).1 (by decide +kernel)
  have hdim : (g.ringDim : ZMod c.modulus.toNat) ≠ 0 := by decide +kernel
  obtain ⟨-, -, -, -, -, -, hside, hwords, hentries⟩ := layout_entries g
  obtain ⟨-, hfill⟩ := hwords (hside.2 (by decide))
  obtain ⟨hforward, hforwardEntries⟩ := hentries c 19 .forward hprime
  obtain ⟨hinverse, hinverseEntries⟩ := hentries c 19 .inverse hprime
  obtain ⟨t, ht⟩ := hforward.2 ⟨hroot, fun hne => absurd hne (by decide)⟩
  obtain ⟨t', ht'⟩ := hinverse.2 ⟨hroot, fun _ => hdim⟩
  obtain ⟨marks, hmarks, -⟩ := hfill (factor c 19 1)
  exact ⟨g, c, t, t', rfl, rfl, ⟨marks, hmarks⟩, ht, hforwardEntries t ht, ht',
    hinverseEntries t' ht'⟩

end Table

end RnsEngine
