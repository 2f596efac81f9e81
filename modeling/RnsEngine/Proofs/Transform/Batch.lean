import RnsEngine.Proofs.Transform.Inversion
import RnsEngine.Transform.Batch

/-!
# The transform of a bank

The transform of a tile depends on the tile and the table alone, not on what the buffers of the
datapath held (`Datapath.tile_transform`), so it is a function of tiles: `TabledChannel.image`. The
tiles of a bank are transformed one after the other with the same buffers, and each becomes its own
image (`Workspace.bank_transformSpan`).
-/

namespace RnsEngine

variable {g : Geometry}

/-- What the transform makes of a tile does not depend on the buffers. -/
theorem Datapath.tile_transform (c : Channel) (t : Table) (h : t.Covers g) {d d' : Datapath g}
    (hd : d.tile = d'.tile) : (d.transform c t h).tile = (d'.transform c t h).tile := by
  refine Tile.ext_get fun i j => ?_
  simp only [transform]
  cases t.direction with
  | forward => simp only [get_evaluate, hd]
  | inverse => simp only [get_interpolate, hd]

namespace TabledChannel

/-- The transform of a tile in a direction. -/
def image (e : TabledChannel g) (direction : Direction) (t : Tile g.side) : Tile g.side :=
  (Datapath.transform e.channel (e.table direction) (e.table_fits direction).covers
    { Scratch.blank g with tile := t }).tile

/-- The image of a reduced tile is reduced, and its residues are transformed. -/
theorem Transforms.image_spec {e : TabledChannel g} {r : Roots g e.channel.modulus.toNat}
    (he : e.Transforms r) (direction : Direction) {t : Tile g.side} (ht : t.Reduced e.channel) :
    (e.image direction t).Reduced e.channel ∧
      (e.image direction t).residues e.channel = r.apply direction (t.residues e.channel) :=
  he.tile_spec direction _ ht

/-- **Inversion.** The images in opposite directions undo each other on reduced tiles. -/
theorem Transforms.image_opposite_image {e : TabledChannel g}
    {r : Roots g e.channel.modulus.toNat} (he : e.Transforms r) (direction : Direction)
    {t : Tile g.side} (ht : t.Reduced e.channel) :
    e.image direction.opposite (e.image direction t) = t := by
  obtain ⟨honce, hresidues⟩ := he.image_spec direction ht
  obtain ⟨htwice, hback⟩ := he.image_spec direction.opposite honce
  refine Tile.eq_of_residues htwice ht ?_
  rw [hback, hresidues, r.apply_opposite_apply]

/-- **Operations on polynomials.** Two reduced tiles that are transformed, combined and transformed
back have become the polynomial that the operation makes of theirs. -/
theorem Transforms.image_zipWith_image {e : TabledChannel g}
    {r : Roots g e.channel.modulus.toNat} (he : e.Transforms r) (op : PointwiseOp)
    {s t : Tile g.side} (hs : s.Reduced e.channel) (ht : t.Reduced e.channel) :
    let combined := Tile.zipWith (op.apply e.channel) (e.image .forward s) (e.image .forward t)
    (e.image .inverse combined).Reduced e.channel ∧
      (e.image .inverse combined).residues e.channel =
        op.onPolynomials (s.residues e.channel) (t.residues e.channel) := by
  obtain ⟨hs', hvalues⟩ := he.image_spec .forward hs
  obtain ⟨ht', hvalues'⟩ := he.image_spec .forward ht
  obtain ⟨hcombined, hresidues⟩ := Tile.zipWith_spec hs' ht' op
  obtain ⟨hdone, hback⟩ := he.image_spec .inverse hcombined
  refine ⟨hdone, ?_⟩
  rw [hback, hresidues, hvalues, hvalues']
  exact r.apply_eval_apply op _ _

end TabledChannel

namespace Workspace

/-- The bank after so many tiles of a span have been transformed. -/
structure Done (b : Basis) (direction : Direction) (span : Span b.geometry.capacity b.size)
    (before : Bank b.geometry) (done : ℕ) (w : Workspace b.geometry) : Prop where
  active : ∀ (l : Fin span.count) (hl : l.val < b.geometry.capacity),
    getElem w.bank l.val hl =
      if l.val < done then (entryAt b span l).image direction (getElem before l.val hl)
      else getElem before l.val hl
  idle : ∀ (l : ℕ) (hl : l < b.geometry.capacity), span.count ≤ l →
    getElem w.bank l hl = getElem before l hl

/-- Transforming the next tile leaves those before and after it alone. -/
theorem Done.transformTile {b : Basis} {direction : Direction}
    {span : Span b.geometry.capacity b.size} {before : Bank b.geometry} {w : Workspace b.geometry}
    (l : Fin span.count) (h : Done b direction span before l w) :
    Done b direction span before (l + 1)
      (w.transformTile (entryAt b span l).channel ((entryAt b span l).table direction)
        (covers_of_geometry_eq rfl (entryAt b span l) direction) (span.tile l)) := by
  refine ⟨fun l' hl' => ?_, fun l' hl' hidle => ?_⟩
  · have hold := h.active l' hl'
    simp only [Workspace.transformTile, Span.tile]
    by_cases heq : l' = l
    · subst heq
      rw [if_neg (Nat.lt_irrefl _)] at hold
      rw [Vector.getElem_set_self, if_pos (Nat.lt_succ_self _), TabledChannel.image]
      exact Datapath.tile_transform _ _ _ hold
    · have hne : l.val ≠ l'.val := fun hval => heq (Fin.ext hval.symm)
      have hiff : l'.val < l.val + 1 ↔ l'.val < l.val := by omega
      rw [Vector.getElem_set_ne _ _ hne, hold]
      simp only [hiff]
  · have hne : l.val ≠ l' := by
      have := l.isLt
      omega
    simp only [Workspace.transformTile, Span.tile, Vector.getElem_set_ne _ _ hne]
    exact h.idle l' hl' hidle

/-- After the whole span every active tile has become its image, and the others are kept. -/
theorem done_transformSpan (b : Basis) (direction : Direction)
    (span : Span b.geometry.capacity b.size) (w : Workspace b.geometry) :
    Done b direction span w.bank span.count (transformSpan b rfl direction span w) :=
  foldl_carries (Done b direction span w.bank) _ ⟨fun _ _ => by simp, fun _ _ _ => rfl⟩
    fun l _ h => h.transformTile l

/-- Every active tile of a span becomes its image. -/
theorem bank_transformSpan (b : Basis) (direction : Direction)
    (span : Span b.geometry.capacity b.size) (w : Workspace b.geometry) (l : Fin span.count)
    (hl : l.val < b.geometry.capacity) :
    getElem (transformSpan b rfl direction span w).bank l.val hl =
      (entryAt b span l).image direction (getElem w.bank l.val hl) := by
  rw [(done_transformSpan b direction span w).active l hl, if_pos l.isLt]

end Workspace

end RnsEngine
