import RnsEngine.Proofs.Transform.Guarded

/-!
# What the permutation network does

A pass of the network takes every entry of a tile to the place that a permutation of the square
gives it (`Staged.Moves`), whatever words the tile and the staging buffer hold. Rotating the rows to
the right is `Staged.rotation` and rotating them to the left its inverse, so that each undoes the
other; reflecting the columns is `Staged.reflection`, which is its own inverse. Three passes in a
row exchange rows and columns, and on flat indices this is `outputIndex`.

A pass is run as a loop over rows and columns that writes over the tile it has staged, to positions
that are computed by masking words (`Staged.passLoop`). The writes do not disturb each other, since
no two of them go to the same place, nor what is read, since that is staged
(`Staged.passLoop_eq`). `Staged.network_permutes` draws all this together.
-/

namespace RnsEngine

namespace Staged

/-! ### Programs that move entries -/

section Moves

variable {side : ℕ} {f f' : Staged side → Staged side} {σ : Equiv.Perm (Fin side × Fin side)}

/-- A program moves the entries of a tile by a permutation of the square: the entry of a position is
found at its image, whatever the words are and whatever is staged. -/
def Moves (f : Staged side → Staged side) (σ : Equiv.Perm (Fin side × Fin side)) : Prop :=
  ∀ s p, (f s).tile.get (σ p).1 (σ p).2 = s.tile.get p.1 p.2

/-- What is moved by a permutation and then by its inverse is as before, whatever is staged in
between. -/
theorem Moves.undo (hf : Moves f σ) (hf' : Moves f' σ.symm) (s : Staged side)
    (staging : Tile side) : (f' { tile := (f s).tile, staging }).tile = s.tile := by
  refine Tile.ext_get fun i j => ?_
  have hback := hf' { tile := (f s).tile, staging } (σ (i, j))
  rw [Equiv.symm_apply_apply] at hback
  exact hback.trans (hf s (i, j))

end Moves

/-! ### The permutations of the network -/

section Permutations

variable (side : ℕ) [NeZero side]

/-- Row `i` is rotated to the right by `i` places. -/
def rotation : Equiv.Perm (Fin side × Fin side) where
  toFun p := (p.1, p.2 + p.1)
  invFun p := (p.1, p.2 - p.1)
  left_inv p := Prod.ext rfl (add_sub_cancel_right p.2 p.1)
  right_inv p := Prod.ext rfl (sub_add_cancel p.2 p.1)

/-- The rows of column `c` are exchanged in pairs with the sum `c`. -/
def reflection : Equiv.Perm (Fin side × Fin side) :=
  Function.Involutive.toPerm (fun p => (p.2 - p.1, p.2)) fun p =>
    Prod.ext (sub_sub_cancel p.2 p.1) rfl

variable {side}

/-- Rotating to the right. -/
theorem moves_interleave_right : Moves (interleave .right) (rotation side) :=
  fun s p => get_interleave_right s p.1 p.2

/-- Rotating to the left. -/
theorem moves_interleave_left : Moves (interleave .left) (rotation side).symm := by
  rintro s ⟨i, j⟩
  have hget := get_interleave_left s i (j - i)
  rw [sub_add_cancel] at hget
  exact hget

/-- Reflecting the columns. -/
theorem moves_reflect : Moves reflect (reflection side) :=
  fun s p => get_reflect s p.1 p.2

/-- Transposing. -/
theorem moves_transpose : Moves transpose (Equiv.prodComm (Fin side) (Fin side)) :=
  fun s p => get_transpose s p.2 p.1

end Permutations

/-! ### Passes as loops

A pass is a loop over the rows and columns of the tile that has been staged, and the positions that
it writes to are computed in words. -/

/-- The place on the circle of the side that is a sum or a difference of two places, computed in
words that wrap around and masked with the number before the side. -/
def maskedPlace (shift : Shift) (side i j : UInt64) : UInt64 :=
  match shift with
  | .right => (j + i) &&& (side - 1)
  | .left => (j - i) &&& (side - 1)

/-- Stages the tile, and writes the staged entries, row after row, to the positions of words that
are computed from theirs. -/
def passLoop {side : ℕ} (dest : UInt64 → UInt64 → UInt64 × UInt64) (s : Staged side) :
    Option (Staged side) := do
  let staging := s.tile
  let tile ← Fin.foldlM side (fun t i => Fin.foldlM side (fun t j => do
    let x ← staging.get? i.val j.val
    let (row, column) := dest (.ofNat i.val) (.ofNat j.val)
    t.set? row.toNat column.toNat x) t) s.tile
  return { tile, staging }

/-- Rotates row `i` by `i` places, in a loop. -/
def interleaveLoop {side : ℕ} (shift : Shift) : Staged side → Option (Staged side) :=
  passLoop fun i j => (i, maskedPlace shift (.ofNat side) i j)

/-- Sends row `r` of column `c` to row `c - r`, in a loop. -/
def reflectLoop {side : ℕ} : Staged side → Option (Staged side) :=
  passLoop fun r c => (maskedPlace .left (.ofNat side) r c, c)

/-- Transposes the tile in three loops. -/
def transposeLoop {side : ℕ} (s : Staged side) : Option (Staged side) := do
  let s ← s.interleaveLoop .right
  let s ← s.reflectLoop
  s.interleaveLoop .left

section Loops

variable {side : ℕ}

/-- An entry of a tile in which one entry has been replaced. -/
theorem get_set (t : Tile side) (p p' : Fin side × Fin side) (x : UInt64) :
    (t.set p.1 p.2 x).get p'.1 p'.2 = if p' = p then x else t.get p'.1 p'.2 := by
  have hword := RnsEngine.get_set t.words (Tile.index p.1 p.2) (Tile.index p'.1 p'.2) x
  by_cases h : p' = p
  · subst h
    rw [if_pos rfl]
    exact hword.trans (if_pos rfl)
  · rw [if_neg h]
    exact hword.trans (if_neg fun heq => h (Tile.index_inj heq))

variable (σ : Equiv.Perm (Fin side × Fin side)) (staging : Tile side)

/-- The staged entry of a position is found at the image of the position. -/
def Arrived (t : Tile side) (p : Fin side × Fin side) : Prop :=
  t.get (σ p).1 (σ p).2 = staging.get p.1 p.2

/-- Writes the staged entries of a row to the images of their positions. -/
def writeRow (t : Tile side) (i : Fin side) : Tile side :=
  Fin.foldl side (fun t j => t.set (σ (i, j)).1 (σ (i, j)).2 (staging.get i j)) t

variable {σ staging}

/-- A write makes one entry arrive, and leaves those alone that have arrived. -/
theorem Arrived.set {t : Tile side} {p q : Fin side × Fin side}
    (h : p ≠ q → Arrived σ staging t p) :
    Arrived σ staging (t.set (σ q).1 (σ q).2 (staging.get q.1 q.2)) p := by
  rw [Arrived, get_set]
  split
  · next heq => rw [σ.injective heq]
  · next hne => exact h fun heq => hne (congrArg σ heq)

/-- Writing a row makes its entries arrive, after those of the rows before. -/
theorem arrived_writeRow {t : Tile side} {i : Fin side}
    (ht : ∀ p : Fin side × Fin side, p.1.val < i.val → Arrived σ staging t p)
    (p : Fin side × Fin side) (hp : p.1.val < i.val + 1) :
    Arrived σ staging (writeRow σ staging t i) p := by
  have hrow := foldl_carries
    (fun m t => ∀ p : Fin side × Fin side, p.1.val < i.val ∨ p.1 = i ∧ p.2.val < m →
      Arrived σ staging t p)
    (fun t j => t.set (σ (i, j)).1 (σ (i, j)).2 (staging.get i j)) (s := t)
    (fun p hp => ht p (hp.resolve_right fun h => Nat.not_lt_zero _ h.2)) fun j t ht p hp => ?_
  · refine hrow p ?_
    rcases Nat.lt_succ_iff_lt_or_eq.1 hp with hlt | heq
    · exact .inl hlt
    · exact .inr ⟨Fin.ext heq, p.2.isLt⟩
  · refine Arrived.set (q := (i, j)) fun hne => ht p (hp.imp_right fun ⟨hi, hj⟩ => ⟨hi, ?_⟩)
    exact Nat.lt_of_le_of_ne (Nat.le_of_lt_succ hj) fun heq => hne (Prod.ext hi (Fin.ext heq))

variable (σ staging) in
/-- Writing row after row makes every entry arrive. -/
theorem arrived_foldl_writeRow (t : Tile side) (p : Fin side × Fin side) :
    Arrived σ staging (Fin.foldl side (writeRow σ staging) t) p := by
  have hrows := foldl_carries
    (fun m t => ∀ p : Fin side × Fin side, p.1.val < m → Arrived σ staging t p)
    (writeRow σ staging) (s := t) (fun p hp => absurd hp (Nat.not_lt_zero _))
    fun i t ht => arrived_writeRow ht
  exact hrows p p.1.isLt

/-- Words give a position. -/
def IsPosition (w : UInt64 × UInt64) (p : Fin side × Fin side) : Prop :=
  w.1.toNat = p.1.val ∧ w.2.toNat = p.2.val

/-- A pass that moves the entries by a permutation is the loop that computes the same places. -/
theorem passLoop_eq {f : Staged side → Staged side} (hf : Moves f σ)
    (hstaging : ∀ s, (f s).staging = s.tile) {dest : UInt64 → UInt64 → UInt64 × UInt64}
    (hdest : ∀ i j : Fin side, IsPosition (dest (.ofNat i.val) (.ofNat j.val)) (σ (i, j)))
    (s : Staged side) : passLoop dest s = some (f s) := by
  have hstep : ∀ (t : Tile side) (i j : Fin side), (do
      let x ← s.tile.get? i.val j.val
      let (row, column) := dest (.ofNat i.val) (.ofNat j.val)
      t.set? row.toNat column.toNat x) =
        some (t.set (σ (i, j)).1 (σ (i, j)).2 (s.tile.get i j)) := by
    intro t i j
    have hread : s.tile.get? i.val j.val = some (s.tile.get i j) :=
      Vector.getElem?_eq_getElem (Tile.index i j).isLt
    obtain ⟨hrow, hcolumn⟩ := hdest i j
    rw [hread]
    show t.set? _ _ _ = _
    rw [hrow, hcolumn]
    exact dif_pos (Tile.index (σ (i, j)).1 (σ (i, j)).2).isLt
  have hrow : ∀ (t : Tile side) (i : Fin side), Fin.foldlM side (fun t j => do
      let x ← s.tile.get? i.val j.val
      let (row, column) := dest (.ofNat i.val) (.ofNat j.val)
      t.set? row.toNat column.toNat x) t = some (writeRow σ s.tile t i) := fun t i =>
    (foldlM_eq_pure (P := fun _ => True) trivial fun t j _ => ⟨hstep t i j, trivial⟩).1
  have hrun := (foldlM_eq_pure (P := fun _ => True) (s := s.tile) trivial
    fun t i _ => ⟨hrow t i, trivial⟩).1
  refine (congrArg (· >>= _) hrun).trans (congrArg some ?_)
  -- both tiles have the entry of a position at its image, and every position is an image
  have htile : Fin.foldl side (writeRow σ s.tile) s.tile = (f s).tile := by
    refine Tile.ext_get fun i j => ?_
    have hloop := arrived_foldl_writeRow σ s.tile s.tile (σ.symm (i, j))
    have hpass := hf s (σ.symm (i, j))
    rw [Arrived, Equiv.apply_symm_apply] at hloop
    rw [Equiv.apply_symm_apply] at hpass
    exact hloop.trans hpass.symm
  rw [htile, ← hstaging s]

end Loops

/-! ### The loops of the network -/

section Network

variable (g : Geometry)

/-- The place that is computed in words is the one that an entry is rotated to. -/
theorem toNat_maskedPlace (shift : Shift) (i j : Fin g.side) :
    (maskedPlace shift (.ofNat g.side) (.ofNat i.val) (.ofNat j.val)).toNat =
      (rotated shift i j).val := by
  have hside : (UInt64.ofNat g.side).toNat = 2 ^ g.logSide :=
    UInt64.toNat_ofNat_of_lt' g.side_lt
  have hpow : 2 ^ g.logSide = g.side := rfl
  cases shift with
  | right =>
    have hdvd : g.side ∣ 2 ^ 64 := Nat.pow_dvd_pow 2 (Nat.le_trans g.logSide_le (by decide))
    have hval : (rotated .right i j).val = (j.val + i.val) % g.side := Fin.val_add j i
    rw [maskedPlace, toNat_and_pred hside, hside, hpow, UInt64.toNat_add, g.toNat_ofNat_place,
      g.toNat_ofNat_place, Nat.mod_mod_of_dvd _ hdvd, hval]
  | left =>
    have hval : (rotated .left i j).val = _ := (Datapath.wrappedSub_eq j i).symm
    have hsum : 2 ^ 64 - i.val + j.val = j.val + 2 ^ 64 - i.val := by
      have := Nat.lt_trans i.isLt g.side_lt
      omega
    rw [maskedPlace, toNat_and_pred hside, hside, hpow, UInt64.toNat_sub, g.toNat_ofNat_place,
      g.toNat_ofNat_place, hsum, hval, Datapath.wrappedSub]

variable {g}

/-- The loop that rotates the rows. -/
theorem interleaveLoop_eq (shift : Shift) (s : Staged g.side) :
    s.interleaveLoop shift = some (s.interleave shift) := by
  cases shift with
  | right =>
    exact passLoop_eq moves_interleave_right (fun _ => rfl)
      (fun i j => ⟨g.toNat_ofNat_place i, toNat_maskedPlace g .right i j⟩) s
  | left =>
    exact passLoop_eq moves_interleave_left (fun _ => rfl)
      (fun i j => ⟨g.toNat_ofNat_place i, toNat_maskedPlace g .left i j⟩) s

/-- The loop that reflects the columns. -/
theorem reflectLoop_eq (s : Staged g.side) : s.reflectLoop = some s.reflect :=
  passLoop_eq moves_reflect (fun _ => rfl)
    (fun r c => ⟨toNat_maskedPlace g .left r c, g.toNat_ofNat_place c⟩) s

/-- The three loops that transpose. -/
theorem transposeLoop_eq (s : Staged g.side) : s.transposeLoop = some s.transpose := by
  refine (congrArg (· >>= _) (interleaveLoop_eq .right s)).trans ?_
  refine (congrArg (· >>= _) (reflectLoop_eq _)).trans ?_
  exact interleaveLoop_eq .left _

end Network

end Staged

/-! ### Flat places -/

/-- The place that the final transposition takes a flat place to. -/
def outputPlace (g : Geometry) (k : Fin (g.side * g.side)) : Fin (g.side * g.side) :=
  Tile.index (Tile.column k) (Tile.row k)

/-- The output index of a flat place is a flat place. -/
theorem val_outputPlace (g : Geometry) (k : Fin (g.side * g.side)) :
    (outputPlace g k).val = outputIndex g k.val := rfl

/-- The position of an output place has row and column exchanged. -/
theorem outputPlace_index (g : Geometry) (i j : Fin g.side) :
    outputPlace g (Tile.index i j) = Tile.index j i := by
  rw [outputPlace, Tile.row_index, Tile.column_index]

/-- Exchanging row and column twice leads back. -/
theorem outputPlace_involutive (g : Geometry) : Function.Involutive (outputPlace g) := by
  intro k
  rw [← Tile.index_row_column k, outputPlace_index, outputPlace_index]

/-- Transposing a tile scatters its words to their output places. -/
theorem scatter_outputPlace {g : Geometry} (s : Staged g.side)
    (target : Vector UInt64 (g.side * g.side)) :
    scatter (outputPlace g) s.tile.words.get target = s.transpose.tile.words := by
  have hinj : ∀ k k', outputPlace g k = outputPlace g k' → k = k' := fun _ _ h =>
    (outputPlace_involutive g).injective h
  suffices h : Tile.mk (scatter (outputPlace g) s.tile.words.get target) = s.transpose.tile from
    congrArg Tile.words h
  refine Tile.ext_get fun i j => ?_
  have hscatter : (scatter (outputPlace g) s.tile.words.get target).get
      (outputPlace g (Tile.index j i)) = s.tile.get j i :=
    getElem_scatter hinj s.tile.words.get target (Tile.index j i)
  rw [outputPlace_index] at hscatter
  rw [Staged.get_transpose]
  exact hscatter

/-- **The permutation network.** Whatever words a tile and the staging buffer hold: rotating to the
right takes the entry of row `i` and column `j` to column `i + j` modulo the side, rotating to the
left takes it back, and either undoes the other. Reflecting sends row `r` of column `c` to row
`c - r` modulo the side, and undoes itself. The three passes exchange rows and columns, which is
scattering the words by their output index. Every one of these programs permutes the square, and is
run by loops over rows and columns, with positions computed in words, that write over the tile. -/
theorem Staged.network_permutes (g : Geometry) :
    (∀ s : Staged g.side, (∀ shift, s.interleaveLoop shift = some (s.interleave shift)) ∧
      s.reflectLoop = some s.reflect ∧ s.transposeLoop = some s.transpose) ∧
    (Moves (interleave .right) (rotation g.side) ∧
      ∀ i j : Fin g.side, (rotation g.side (i, j)).1 = i ∧
        (rotation g.side (i, j)).2.val = (i.val + j.val) % g.side) ∧
    Moves (interleave .left) (rotation g.side).symm ∧
    (∀ (s : Staged g.side) (staging : Tile g.side),
      (interleave .left { tile := (s.interleave .right).tile, staging }).tile = s.tile ∧
      (interleave .right { tile := (s.interleave .left).tile, staging }).tile = s.tile) ∧
    (Moves reflect (reflection g.side) ∧
      ∀ r c : Fin g.side, (reflection g.side (r, c)).2 = c ∧
        (reflection g.side (r, c)).1.val = (c.val + (g.side - r.val)) % g.side) ∧
    (∀ (s : Staged g.side) (staging : Tile g.side),
      (reflect { tile := s.reflect.tile, staging }).tile = s.tile) ∧
    Moves transpose (Equiv.prodComm (Fin g.side) (Fin g.side)) ∧
    (∀ k, (outputPlace g k).val = outputIndex g k.val) ∧
    Function.Bijective (outputPlace g) ∧
    ∀ (s : Staged g.side) (target : Vector UInt64 (g.side * g.side)),
      scatter (outputPlace g) s.tile.words.get target = s.transpose.tile.words := by
  refine ⟨fun s => ⟨fun shift => interleaveLoop_eq shift s, reflectLoop_eq s, transposeLoop_eq s⟩,
    ⟨moves_interleave_right, fun i j => ⟨rfl, ?_⟩⟩,
    moves_interleave_left, fun s staging =>
      ⟨moves_interleave_right.undo moves_interleave_left s staging,
        moves_interleave_left.undo moves_interleave_right s staging⟩,
    ⟨moves_reflect, fun r c => ⟨rfl, ?_⟩⟩, moves_reflect.undo moves_reflect, moves_transpose,
    val_outputPlace g, (outputPlace_involutive g).bijective, scatter_outputPlace⟩
  · rw [Nat.add_comm]
    exact Fin.val_add j i
  · rw [Nat.add_comm]
    exact congrArg Fin.val (Fin.sub_def c r)

end RnsEngine
