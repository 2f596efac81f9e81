import RnsEngine.Proofs.Fold
import RnsEngine.Proofs.Refusal
import RnsEngine.Proofs.Ring.Operations

/-!
# Pointwise operations in place

A pointwise operation walks through the tiles that it writes to and the channels of its window side
by side, and through the words of each tile (`Pointwise.overwrite`). Each of its operands is read
either in a bank of its own or in the bank that is being written to. In the second case a word is
read before it is overwritten and never after, so that the operand is as good as a snapshot of that
bank (`Pointwise.overwrite_snapshot`). With this the two kernels, the one that writes to a third
bank and the one that writes to its first operand, are one program with different operands, and
agree on all tiles of the window: `Pointwise.overwrite_outcome`.
-/

namespace RnsEngine

/-- An operation on reduced words is the operation on integers, reduced. -/
theorem PointwiseOp.toNat_apply (op : PointwiseOp) {c : Channel} {x y : UInt64}
    (hx : x < c.modulus) (hy : y < c.modulus) :
    ((op.apply c x y).toNat : ℤ) = op.eval (x.toNat : ℤ) (y.toNat : ℤ) % (c.modulus.toNat : ℤ) := by
  obtain ⟨hlt, hresidue⟩ := op.apply_spec hx hy
  have hcast : (((op.apply c x y).toNat : ℤ) : ZMod c.modulus.toNat) =
      (op.eval (x.toNat : ℤ) (y.toNat : ℤ) : ℤ) := by
    rw [Int.cast_natCast]
    refine hresidue.trans ?_
    cases op <;> simp [PointwiseOp.eval, Channel.residue]
  have hmod := (ZMod.intCast_eq_intCast_iff _ _ _).1 hcast
  have hsmall : ((op.apply c x y).toNat : ℤ) < c.modulus.toNat :=
    Int.ofNat_lt.2 (UInt64.lt_iff_toNat_lt.1 hlt)
  exact (Int.emod_eq_of_lt (Int.natCast_nonneg _) hsmall).symm.trans hmod

namespace Pointwise

variable {g : Geometry}

/-! ### Programs -/

/-- Where an operand is read: in a bank of its own, or in the bank that is written to. -/
inductive Operand (g : Geometry) where
  | bank (tiles : Bank g)
  | target

namespace Operand

/-- The word of an operand in a place, with the word that stands in this place of the bank that is
written to. -/
def word (o : Operand g) (l : Fin g.capacity) (k : Fin (g.side * g.side)) (current : UInt64) :
    UInt64 :=
  match o with
  | bank tiles => (tiles.get l).words.get k
  | target => current

/-- The operand, when the bank that is written to is as given. -/
def snapshot (o : Operand g) (current : Bank g) : Bank g :=
  match o with
  | bank tiles => tiles
  | target => current

end Operand

/-- Writes the results over the words of a tile, one after the other. -/
def overwriteTile (op : PointwiseOp) (c : Channel) (left right : Operand g) (l : Fin g.capacity)
    (tile : Tile g.side) : Tile g.side :=
  ⟨changeEach (fun k x => op.apply c (left.word l k x) (right.word l k x)) tile.words⟩

/-- Writes the results over the tiles of a bank, side by side with the channels of a window. -/
def overwriteTiles (op : PointwiseOp) (left right : Operand g) (channels : List Channel)
    (target : Bank g) : Bank g :=
  ((List.finRange g.capacity).zip channels).foldl (fun target p => target.set p.1.val
    (overwriteTile op p.2 left right p.1 (target.get p.1)) p.1.isLt) target

/-- Writes the results over the active tiles of a bank. -/
def overwrite (op : PointwiseOp) (left right : Operand g) (channels : Array Channel) (w : Window) :
    ExceptT Fault (StateM (Bank g)) Unit := do
  let span ← liftExcept (w.validate g.capacity channels.size)
  modify (overwriteTiles op left right (channels.extract span.start span.stop).toList)

variable {op : PointwiseOp} {left right : Operand g} {channels : Array Channel} {w : Window}
  {target : Bank g}

/-! ### Tiles -/

/-- While a tile is overwritten, the operands are what they were before. -/
theorem overwriteTile_eq (c : Channel) (l : Fin g.capacity) :
    overwriteTile op c left right l (target.get l) =
      Tile.zipWith (op.apply c) ((left.snapshot target).get l) ((right.snapshot target).get l) := by
  have hword : ∀ (o : Operand g) (k : Fin (g.side * g.side)),
      o.word l k ((target.get l).words.get k) = ((o.snapshot target).get l).words.get k := by
    intro o k
    cases o <;> rfl
  refine congrArg Tile.mk ?_
  rw [changeEach, foldl_set_get fun k x => op.apply c (left.word l k x) (right.word l k x)]
  refine Vector.ext fun k hk => ?_
  rw [Vector.getElem_ofFn, Vector.getElem_zipWith, hword, hword]
  rfl

/-- The tiles that have a channel are overwritten, and the others are kept. -/
theorem get_overwriteTiles {active : List Channel} (hlength : active.length ≤ g.capacity)
    (l : Fin g.capacity) :
    (overwriteTiles op left right active target).get l =
      if hl : l.val < active.length then Tile.zipWith (op.apply active[l.val])
        ((left.snapshot target).get l) ((right.snapshot target).get l)
      else target.get l := by
  have hroom : active.length ≤ (List.finRange g.capacity).length :=
    List.length_finRange.symm ▸ hlength
  rw [overwriteTiles, foldl_zip _ hroom (Nat.le_refl _) (.inr rfl)]
  have hwalk := get_foldl_set hlength
    (fun i => overwriteTile op active[i.val] left right (i.castLE hlength)) target l
  simp only [List.get_finRange]
  refine Eq.trans hwalk ?_
  split
  · exact overwriteTile_eq _ l
  · rfl

/-! ### Kernels -/

/-- Overwriting the tiles of a window writes what the kernel computes from snapshots of the
operands, and a window that is refused leaves the bank alone. -/
theorem overwrite_eq (op : PointwiseOp) (left right : Operand g) (channels : Array Channel)
    (w : Window) (target : Bank g) :
    overwrite op left right channels w target =
      match into op (left.snapshot target) (right.snapshot target) target channels w with
      | .ok written => (.ok (), written)
      | .error fault => (.error fault, target) := by
  rw [overwrite, into]
  cases hspan : w.validate g.capacity channels.size with
  | error fault => rfl
  | ok span =>
    have hlength : (channels.extract span.start span.stop).toList.length = span.count := by
      have hstop : span.stop ≤ channels.size := span.stop_le
      rw [Array.length_toList, Array.size_extract, Nat.min_eq_left hstop, Span.stop,
        Nat.add_sub_cancel_left]
    refine congrArg (Prod.mk (Except.ok ())) (Vector.ext fun l hl => ?_)
    refine (get_overwriteTiles (hlength.trans_le span.count_le) ⟨l, hl⟩).trans ?_
    rw [Vector.getElem_mapFinIdx]
    simp only [hlength]
    split
    · next hactive =>
      have hchannel : (channels.extract span.start span.stop).toList[l] =
          channelAt span l hactive := by
        simp [channelAt]
      rw [hchannel]
      rfl
    · rfl

/-- An operand that is read in the bank that is written to is as good as a snapshot of it. -/
theorem overwrite_snapshot (op : PointwiseOp) (left right : Operand g) (channels : Array Channel)
    (w : Window) (target : Bank g) :
    overwrite op left right channels w target = overwrite op (.bank (left.snapshot target))
      (.bank (right.snapshot target)) channels w target := by
  rw [overwrite_eq, overwrite_eq]
  rfl

/-- The kernel that writes to its first operand is the other one, over that operand. -/
theorem assign_eq_into (op : PointwiseOp) (left right : Bank g) (channels : Array Channel)
    (w : Window) : assign op left right channels w = into op left right left channels w := by
  rw [assign, into]
  cases w.validate g.capacity channels.size with
  | error fault => rfl
  | ok span =>
    refine congrArg Except.ok (Vector.ext fun l hl => ?_)
    rw [Vector.getElem_mapFinIdx, Vector.getElem_mapFinIdx]

/-- A kernel is refused for what its window is refused for. -/
theorem map_into (op : PointwiseOp) (left right target : Bank g) (channels : Array Channel)
    (w : Window) : (into op left right target channels w).map (fun _ => ()) =
      (w.validate g.capacity channels.size).map fun _ => () := by
  rw [into]
  cases w.validate g.capacity channels.size <;> rfl

/-- A kernel computes the tiles of its window, each in the channel with its index, and keeps the
others. -/
theorem get_of_into {left right written : Bank g}
    (h : into op left right target channels w = .ok written) (l : Fin g.capacity) :
    (l.val < w.count → ∃ c, channels[w.offset + l.val]? = some c ∧
      written.get l = Tile.zipWith (op.apply c) (left.get l) (right.get l)) ∧
    (w.count ≤ l.val → written.get l = target.get l) := by
  obtain ⟨span, hspan, h⟩ := bind_eq_ok_iff.1 h
  obtain rfl := Except.ok.inj h
  obtain ⟨hstart, hcount⟩ := Window.validate_eq_ok_iff.1 hspan
  rw [← hstart, ← hcount]
  constructor
  · intro hl
    exact ⟨channelAt span l.val hl, Array.getElem?_eq_getElem (span.index_lt hl),
      (Vector.getElem_mapFinIdx l.isLt).trans (dif_pos hl)⟩
  · intro hl
    exact (Vector.getElem_mapFinIdx l.isLt).trans (dif_neg (Nat.not_lt.2 hl))

/-- Whether tiles are overwritten depends on their window alone. -/
theorem overwrite_fst (op : PointwiseOp) (left right : Operand g) (channels : Array Channel)
    (w : Window) (target : Bank g) :
    (overwrite op left right channels w target).1 =
      (w.validate g.capacity channels.size).map fun _ => () := by
  rw [overwrite_eq,
    ← map_into op (left.snapshot target) (right.snapshot target) target channels w]
  cases into op (left.snapshot target) (right.snapshot target) target channels w <;> rfl

/-- With a window that is refused the bank is left alone. -/
theorem overwrite_snd_of_refused (op : PointwiseOp) (left right : Operand g) (target : Bank g)
    (h : (w.validate g.capacity channels.size).map (fun _ => ()) ≠ .ok ()) :
    (overwrite op left right channels w target).2 = target := by
  rw [← map_into op (left.snapshot target) (right.snapshot target) target channels w] at h
  rw [overwrite_eq]
  cases hinto : into op (left.snapshot target) (right.snapshot target) target channels w with
  | ok written => exact absurd (congrArg (Except.map fun _ => ()) hinto) h
  | error fault => rfl

/-- With a window that is accepted its tiles are computed, and the others are kept. -/
theorem get_overwrite (op : PointwiseOp) (left right : Operand g) (target : Bank g)
    (h : (w.validate g.capacity channels.size).map (fun _ => ()) = .ok ()) (l : Fin g.capacity) :
    (l.val < w.count → ∃ c, channels[w.offset + l.val]? = some c ∧
      (overwrite op left right channels w target).2.get l = Tile.zipWith (op.apply c)
        ((left.snapshot target).get l) ((right.snapshot target).get l)) ∧
    (w.count ≤ l.val → (overwrite op left right channels w target).2.get l = target.get l) := by
  rw [← map_into op (left.snapshot target) (right.snapshot target) target channels w] at h
  rw [overwrite_eq]
  cases hinto : into op (left.snapshot target) (right.snapshot target) target channels w with
  | ok written => exact get_of_into hinto l
  | error fault =>
    rw [hinto] at h
    cases h

/-- The windows that are admissible. -/
theorem map_validate_eq_ok_iff (w : Window) (capacity available : ℕ) :
    (w.validate capacity available).map (fun _ => ()) = .ok () ↔
      w.count ≤ capacity ∧ w.offset + w.count ≤ available := by
  have hmap : ∀ r : Except Fault (Span capacity available),
      r.map (fun _ => ()) = .ok () ↔ ∃ span, r = .ok span := by
    intro r
    cases r <;> simp [Except.map]
  rw [hmap]
  constructor
  · rintro ⟨span, hspan⟩
    obtain ⟨hstart, hcount⟩ := Window.validate_eq_ok_iff.1 hspan
    exact ⟨hcount ▸ span.count_le, hstart ▸ hcount ▸ span.stop_le⟩
  · rintro ⟨hcount, hstop⟩
    exact ⟨⟨w.offset, w.count, hcount, hstop⟩, Window.validate_eq_ok_iff.2 ⟨rfl, rfl⟩⟩

/-- **Pointwise operations.** The kernel that writes to a third bank and the one that writes to its
first operand accept the same windows, those that are admissible, and are refused alike, with
nothing written. They agree on all tiles of the window, whatever stood there before: entry by entry
the exact result in the channel with the index of the tile, if the operands are reduced. All other
tiles are kept. An operand that is read in the bank that is being written to is as good as a
snapshot of this bank. -/
theorem overwrite_outcome (op : PointwiseOp) (channels : Array Channel) (w : Window)
    (left right target : Bank g) :
    let computed : Except Fault Unit × Bank g :=
      overwrite op (.bank left) (.bank right) channels w target
    let assigned : Except Fault Unit × Bank g :=
      overwrite op .target (.bank right) channels w left
    let accepted := (w.validate g.capacity channels.size).map fun _ => ()
    computed.1 = accepted ∧ assigned.1 = accepted ∧
    (accepted = .ok () ↔ w.count ≤ g.capacity ∧ w.offset + w.count ≤ channels.size) ∧
    (accepted ≠ .ok () → computed.2 = target ∧ assigned.2 = left) ∧
    (accepted = .ok () → ∀ l : Fin g.capacity, l.val < w.count →
      ∃ c, channels[w.offset + l.val]? = some c ∧ computed.2.get l = assigned.2.get l ∧
        (∀ target' : Bank g, (overwrite op (.bank left) (.bank right) channels w target').2.get l =
          computed.2.get l) ∧
        ((left.get l).Reduced c → (right.get l).Reduced c → ∀ i j : Fin g.side,
          (((computed.2.get l).get i j).toNat : ℤ) = op.eval (((left.get l).get i j).toNat : ℤ)
            (((right.get l).get i j).toNat : ℤ) % (c.modulus.toNat : ℤ))) ∧
    (accepted = .ok () → ∀ l : Fin g.capacity, w.count ≤ l.val →
      computed.2.get l = target.get l ∧ assigned.2.get l = left.get l) ∧
    (∀ first second : Operand g, overwrite op first second channels w target =
      overwrite op (.bank (first.snapshot target)) (.bank (second.snapshot target)) channels w
        target) ∧
    into op left right target channels w = computed.1.map (fun _ => computed.2) ∧
    assign op left right channels w = assigned.1.map fun _ => assigned.2 := by
  intro computed assigned accepted
  refine ⟨overwrite_fst .., overwrite_fst .., map_validate_eq_ok_iff w _ _, fun h =>
    ⟨overwrite_snd_of_refused op _ _ target h, overwrite_snd_of_refused op _ _ left h⟩,
    fun h l hl => ?_, fun h l hl => ⟨(get_overwrite op _ _ target h l).2 hl,
      (get_overwrite op _ _ left h l).2 hl⟩, fun _ _ => overwrite_snapshot .., ?_, ?_⟩
  · have hget := fun (first second : Operand g) (target' : Bank g) =>
      (get_overwrite op first second target' h l).1 hl
    obtain ⟨c, hc, hcomputed⟩ := hget (.bank left) (.bank right) target
    obtain ⟨c', hc', hassigned⟩ := hget .target (.bank right) left
    obtain rfl := Option.some.inj (hc.symm.trans hc')
    refine ⟨c, hc, hcomputed.trans hassigned.symm, fun target' => ?_, fun hleft hright i j => ?_⟩
    · obtain ⟨c', hc', hother⟩ := hget (.bank left) (.bank right) target'
      obtain rfl := Option.some.inj (hc.symm.trans hc')
      exact hother.trans hcomputed.symm
    · rw [hcomputed, Tile.get_zipWith]
      exact op.toNat_apply (hleft (Tile.index i j)) (hright (Tile.index i j))
  · have hcomputed : computed = _ := overwrite_eq op (.bank left) (.bank right) channels w target
    rw [hcomputed]
    simp only [Operand.snapshot]
    cases into op left right target channels w <;> rfl
  · have hassigned : assigned = _ := overwrite_eq op .target (.bank right) channels w left
    rw [hassigned, assign_eq_into]
    simp only [Operand.snapshot]
    cases into op left right left channels w <;> rfl

end Pointwise

end RnsEngine
