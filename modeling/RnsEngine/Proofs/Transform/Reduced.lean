import RnsEngine.Proofs.Basis
import RnsEngine.Proofs.Transform.Operands

/-!
# Reduced tables

The datapath relies on factors that are reduced in the channel that they are used for. A table is
found to be reduced once, in the channel that it is made for (`Table.MadeFor`), whether it is
derived from a root or takes over given words. A derived basis has only such tables with its
channels. One of given tables takes the number, the directions and the sizes of the tables from
what it checks, but not that they suit the channels: they do when no table was made for a larger
modulus than that of its channel, and one that was need not be reduced (`Basis.exists_unreduced`).

`Basis.reduced_operands` puts this together with the datapath: on a reduced basis the transform of
reduced tiles meets no operand that is not reduced.
-/

namespace RnsEngine

/-! ### Tables -/

namespace Table

variable {g : Geometry} {c : Channel} {t : Table}

/-- All words of a table are reduced in a channel. -/
def Reduced (c : Channel) (t : Table) : Prop := ∀ x ∈ t.words, x < c.modulus

/-- A table that was made for a channel, for whichever geometry: derived from a root, or of given
words. -/
inductive MadeFor (c : Channel) (t : Table) : Prop
  | ofRoot {g : Geometry} {psi : UInt64} {direction : Direction}
      (h : Table.ofRoot g c psi direction = .ok t)
  | ofWords {g : Geometry} {words : Array UInt64} {direction : Direction}
      (h : Table.ofWords g c words direction = .ok t)

/-- What is reduced modulo one number is reduced modulo every larger one. -/
theorem Reduced.mono {c' : Channel} (h : t.Reduced c) (hle : c.modulus ≤ c'.modulus) :
    t.Reduced c' := fun x hx => UInt64.lt_of_lt_of_le (h x hx) hle

/-- The factors that are read in a reduced table are reduced. -/
theorem Reduced.all (ht : t.Reduced c) (h : t.Covers g) : t.All (· < c.modulus) h := fun _ =>
  ht _ (Array.getElem_mem _)

/-- Writing values into a vector keeps what holds of its words and of the values. -/
theorem forall_mem_foldl_set {P : UInt64 → Prop} {value : Slot g → UInt64}
    (hvalue : ∀ slot, P (value slot)) (slots : List (Slot g)) :
    ∀ {words : Vector UInt64 g.tableSize}, (∀ x ∈ words, P x) →
      ∀ x ∈ slots.foldl (fun words s => words.set s.index (value s) s.index_lt) words, P x := by
  induction slots with
  | nil => exact fun hwords => hwords
  | cons s slots ih => exact fun hwords => ih (forall_mem_set hwords s.index_lt (hvalue s))

/-- The factors of a root are reduced, and so are the zeros between them. -/
theorem reduced_ofFactors (direction : Direction) (root : UInt64) {scale : UInt64}
    (hscale : scale < c.modulus) : (ofFactors g c direction root scale).Reduced c := by
  have hzero : ∀ x ∈ Vector.replicate g.tableSize (0 : UInt64), x < c.modulus := by
    intro x hx
    rw [(Vector.mem_replicate.1 hx).2]
    exact UInt64.lt_iff_toNat_lt.2 c.modulus_pos
  have hfactor : ∀ slot : Slot g, factor c root scale slot < c.modulus := by
    intro slot
    cases slot with
    | stage s b => exact c.pow_lt _ _
    | twist row => exact c.mul_lt (c.pow_lt _ _) hscale
    | pass row column => exact c.pow_lt _ _
  intro x hx
  exact forall_mem_foldl_set hfactor (Slot.all g) hzero x ((Vector.mem_toArray_iff x _).1 hx)

/-- Given words are taken over when they are as many as the layout has room for and all reduced. -/
theorem ofWords_eq_ok_iff {words : Array UInt64} {direction : Direction} :
    Table.ofWords g c words direction = .ok t ↔
      words.size = g.tableSize ∧ t = ⟨direction, words⟩ ∧ t.Reduced c := by
  have hfound : (words.find? fun x => decide (c.modulus ≤ x)) = none ↔
      ∀ x ∈ words, x < c.modulus := by
    simp only [Array.find?_eq_none, decide_eq_true_eq, UInt64.not_le]
  rw [Table.ofWords]
  constructor
  · intro h
    split at h
    · cases h
    · next hsize =>
      split at h
      · cases h
      · next hnone =>
        obtain rfl := Except.ok.inj h
        exact ⟨not_not.1 hsize, rfl, hfound.1 hnone⟩
  · rintro ⟨hsize, rfl, hreduced⟩
    rw [if_neg (not_not.2 hsize), hfound.2 hreduced]

/-- A table is reduced in the channel that it was made for. -/
theorem MadeFor.reduced (h : t.MadeFor c) : t.Reduced c := by
  cases h with
  | ofRoot h =>
    obtain ⟨root, scale, hscale, rfl⟩ := exists_ofFactors_of_ofRoot h
    exact reduced_ofFactors _ root hscale
  | ofWords h => exact (ofWords_eq_ok_iff.1 h).2.2

end Table

/-- The words of a reduced tile are reduced. -/
theorem Tile.Reduced.all {side : ℕ} {c : Channel} {t : Tile side} (h : t.Reduced c) :
    t.All (· < c.modulus) := by
  intro x hx
  obtain ⟨k, hk, rfl⟩ := Vector.mem_iff_getElem.1 hx
  exact h ⟨k, hk⟩

/-- A table of one word throughout. -/
def Table.constant (g : Geometry) (direction : Direction) (x : UInt64) : Table :=
  ⟨direction, Array.replicate g.tableSize x⟩

namespace Table

variable {g : Geometry} {direction : Direction} {x : UInt64}

/-- A table of one word has the right size. -/
theorem constant_fits : (constant g direction x).Fits g direction := ⟨rfl, Array.size_replicate⟩

/-- A table of one word is accepted by every channel in which the word is reduced. -/
theorem ofWords_constant {c : Channel} (hx : x < c.modulus) :
    Table.ofWords g c (Array.replicate g.tableSize x) direction = .ok (constant g direction x) :=
  ofWords_eq_ok_iff.2 ⟨Array.size_replicate, rfl, fun _ hy =>
    (Array.mem_replicate.1 hy).2 ▸ hx⟩

/-- It is made for these channels. -/
theorem madeFor_constant {c : Channel} (hx : x < c.modulus) :
    (constant g direction x).MadeFor c :=
  .ofWords (ofWords_constant hx)

end Table

/-! ### Bases -/

namespace Basis

variable {g : Geometry} {b : Basis}

/-- A basis has one table of either direction for each channel, with this direction and the size of
the geometry. -/
structure Shaped (g : Geometry) (b : Basis) : Prop where
  geometry_eq : b.geometry = g
  size_tables : ∀ d, (b.tables d).size = b.channels.size
  direction_eq : ∀ d, ∀ t ∈ b.tables d, t.direction = d
  size_words : ∀ d, ∀ t ∈ b.tables d, t.words.size = g.half * g.ringDim

/-- Every table is reduced in the channel with its index. -/
def Reduced (b : Basis) : Prop :=
  ∀ (d : Direction) (i : ℕ) (t : Table) (c : Channel), (b.tables d)[i]? = some t →
    b.channels[i]? = some c → t.Reduced c

/-- Every basis is of such a shape. -/
theorem shaped (b : Basis) : b.Shaped b.geometry := by
  have hfits : ∀ d, ∀ t ∈ b.tables d, t.Fits b.geometry d := by
    intro d t ht
    obtain ⟨e, -, rfl⟩ := Array.mem_map.1 ht
    exact e.table_fits d
  exact ⟨rfl, fun d => by simp [tables, channels], fun d t ht => (hfits d t ht).1,
    fun d t ht => (hfits d t ht).2⟩

/-- A basis is reduced when the tables of each entry are. -/
theorem reduced_iff : b.Reduced ↔ ∀ e ∈ b.entries, ∀ d, (e.table d).Reduced e.channel := by
  constructor
  · intro h e he d
    obtain ⟨i, hi, rfl⟩ := Array.mem_iff_getElem.1 he
    exact h d i _ _ (by simp [tables, hi]) (by simp [channels, hi])
  · intro h d i t c ht hc
    simp only [tables, channels, Array.getElem?_map, Option.map_eq_some_iff] at ht hc
    obtain ⟨e, he, rfl⟩ := ht
    obtain ⟨e', he', rfl⟩ := hc
    obtain rfl := Option.some.inj (he.symm.trans he')
    exact h e (Array.mem_of_getElem? he) d

/-- The tables of a derived basis are made for its channels. -/
theorem Derived.reduced (h : b.Derived g) : b.Reduced := by
  obtain ⟨channels, h⟩ := h.exists_channels
  obtain ⟨entries, hentries, h⟩ := bind_eq_ok_iff.1 h
  have hmade : ∀ c e, TabledChannel.ofChannel g c = .ok e →
      e.channel = c ∧ ∀ d, (e.table d).Reduced e.channel := by
    intro c e h
    obtain ⟨psi, -, h⟩ := bind_eq_ok_iff.1 h
    obtain ⟨forward, hforward, h⟩ := bind_eq_ok_iff.1 h
    obtain ⟨inverse, hinverse, h⟩ := bind_eq_ok_iff.1 h
    obtain rfl := Except.ok.inj h
    exact ⟨rfl, fun d => match d with
      | .forward => (Table.MadeFor.ofRoot (TabledChannel.derive_eq_ok hforward)).reduced
      | .inverse => (Table.MadeFor.ofRoot (TabledChannel.derive_eq_ok hinverse)).reduced⟩
  obtain ⟨-, hall⟩ := mapM_eq_ok_spec hmade hentries
  rw [ofEntries] at h
  split at h
  · obtain rfl := Except.ok.inj h
    exact reduced_iff.2 fun e he => hall e (Array.mem_toList_iff.2 he)
  · cases h

/-- A basis of given channels and tables has just these. -/
theorem ofTables_spec {channels : Array Channel} {forward inverse : Array Table}
    (h : ofTables g channels forward inverse = .ok b) :
    b.geometry = g ∧ b.channels = channels ∧ b.tables .forward = forward ∧
      b.tables .inverse = inverse := by
  have hchecked : ∀ {d tables} {f : Checked g d channels.size},
      check g d channels.size tables = .ok f → f.tables = tables := by
    intro d tables f h
    rw [check] at h
    split at h
    · split at h
      · rw [← Except.ok.inj h]
      · cases h
    · cases h
  rw [ofTables] at h
  split at h
  · obtain ⟨f, hforward, h⟩ := bind_eq_ok_iff.1 h
    obtain ⟨i, hinverse, h⟩ := bind_eq_ok_iff.1 h
    obtain rfl := Except.ok.inj h
    rw [← hchecked hforward, ← hchecked hinverse]
    have hf := f.size_eq
    have hi := i.size_eq
    refine ⟨rfl, Array.ext (by simp [Basis.channels, join]) fun k hk hk' => ?_,
      Array.ext (by simp [tables, join, hf]) fun k hk hk' => ?_,
      Array.ext (by simp [tables, join, hi]) fun k hk hk' => ?_⟩
    · simp [Basis.channels, join]
    · simp [tables, join, TabledChannel.table]
    · simp [tables, join, TabledChannel.table]
  · cases h

/-- Every table was made for a channel whose modulus is not above that of the channel with its
index. -/
def Suits (channels : Array Channel) (tables : Array Table) : Prop :=
  ∀ (i : ℕ) (t : Table) (c : Channel), tables[i]? = some t → channels[i]? = some c →
    ∃ c' : Channel, t.MadeFor c' ∧ c'.modulus ≤ c.modulus

/-- A basis of given tables that suit its channels is reduced. -/
theorem reduced_of_suits {channels : Array Channel} {forward inverse : Array Table}
    (h : ofTables g channels forward inverse = .ok b) (hforward : Suits channels forward)
    (hinverse : Suits channels inverse) : b.Reduced := by
  obtain ⟨-, rfl, rfl, rfl⟩ := ofTables_spec h
  intro d i t c ht hc
  obtain ⟨c', hmade, hle⟩ : ∃ c' : Channel, t.MadeFor c' ∧ c'.modulus ≤ c.modulus :=
    match d with
    | .forward => hforward i t c ht hc
    | .inverse => hinverse i t c ht hc
  exact hmade.reduced.mono hle

/-- One channel whose tables hold one word throughout. -/
def constant (g : Geometry) (c : Channel) (x : UInt64) : Basis :=
  ⟨g, #[⟨c, .constant g .forward x, .constant g .inverse x, Table.constant_fits,
    Table.constant_fits⟩], Nat.one_pos⟩

/-- Such a basis is made of a channel and two tables, whatever their word. -/
theorem ofTables_constant (g : Geometry) (c : Channel) (x : UInt64) :
    ofTables g #[c] #[.constant g .forward x] #[.constant g .inverse x] =
      .ok (constant g c x) := by
  have hfits : ∀ d, ∀ t ∈ #[Table.constant g d x], t.Fits g d := by
    intro d t ht
    rw [Array.mem_singleton.1 ht]
    exact Table.constant_fits
  have hcheck : ∀ d, check g d #[c].size #[.constant g d x] =
      .ok ⟨#[.constant g d x], rfl, hfits d⟩ :=
    fun d => (dif_pos rfl).trans (dif_pos (hfits d))
  have hpos : 0 < #[c].size := Nat.one_pos
  rw [ofTables, dif_pos hpos, hcheck, ok_bind, hcheck, ok_bind]
  rfl

/-- **Reduced operands.** Every basis has one table of either direction for each channel, of this
direction and the right size. The tables of a derived basis are reduced in their channels, and so
are given tables that were made for channels with no larger moduli. On a reduced basis the
transform of reduced tiles, of whatever window and in either direction, meets no operand that is not
reduced, neither in the tiles nor in the tables nor in between: the run on asserting units, which on
plain units is the transform, does not give up. -/
theorem reduced_operands (g : Geometry) :
    (∀ b, Derived g b → b.Shaped g ∧ b.Reduced) ∧
    (∀ channels forward inverse b, ofTables g channels forward inverse = .ok b →
      b.Shaped g ∧ b.channels = channels ∧ b.tables .forward = forward ∧
        b.tables .inverse = inverse ∧
        (Suits channels forward → Suits channels inverse → b.Reduced)) ∧
    ∀ (b : Basis) direction window (w : Workspace b.geometry),
      Workspace.transformOn Channel.plain b direction window w =
          pure (Workspace.transform b direction window w) ∧
        (b.Reduced →
          (∀ span, window.validate b.geometry.capacity b.size = .ok span → ∀ l : Fin span.count,
            (w.bank.get (span.tile l)).Reduced (Workspace.entryAt b span l).channel) →
          Workspace.transformOn Channel.asserting b direction window w =
            some (Workspace.transform b direction window w)) := by
  refine ⟨fun b h => ⟨?_, h.reduced⟩, fun channels forward inverse b h => ?_,
    fun b direction window w => ⟨Workspace.transformOn_plain b direction window w,
      fun hb hw => ?_⟩⟩
  · obtain ⟨rfl, -⟩ := h.spec
    exact b.shaped
  · obtain ⟨rfl, hchannels, hforward, hinverse⟩ := ofTables_spec h
    exact ⟨b.shaped, hchannels, hforward, hinverse, reduced_of_suits h⟩
  · refine Workspace.transformOn_eq ArithmeticUnit.computes_asserting
      (fun e he => (reduced_iff.1 hb e he direction).all _) fun span hspan l => ?_
    exact (hw span hspan l).all

/-- Tables of the greatest residue modulo a prime suit a channel with a larger one, and a tile of
the greatest residue modulo this is transformed on asserting units. -/
theorem reduced_operands_larger_modulus :
    ∃ (g : Geometry) (c c' : Channel) (forward inverse : Table) (b : Basis),
      c.modulus = 193 ∧ c'.modulus = 97 ∧ forward.MadeFor c' ∧ inverse.MadeFor c' ∧
        ofTables g #[c] #[forward] #[inverse] = .ok b ∧ b.Reduced ∧
        ∀ direction, ∃ w : Workspace b.geometry, (∀ l, w.bank.get l = ⟨.replicate _ 192⟩) ∧
          Workspace.transformOn Channel.asserting b direction (.leading 1) w =
            some (Workspace.transform b direction (.leading 1) w) := by
  let c : Channel := ⟨193, Barrett.ofModulus 193, by decide, by decide, rfl⟩
  let c' : Channel := ⟨97, Barrett.ofModulus 97, by decide, by decide, rfl⟩
  let b := constant smallGeometry c 96
  have hmade : ∀ d, (Table.constant smallGeometry d 96).MadeFor c' := fun d =>
    Table.madeFor_constant (by decide)
  have hsuits : ∀ d, Suits #[c] #[.constant smallGeometry d 96] := by
    intro d i t c'' ht hc
    obtain rfl := Array.mem_singleton.1 (Array.mem_of_getElem? ht)
    obtain rfl := Array.mem_singleton.1 (Array.mem_of_getElem? hc)
    exact ⟨c', hmade d, by decide⟩
  obtain ⟨-, htables, hrun⟩ := reduced_operands smallGeometry
  have hb := ofTables_constant smallGeometry c 96
  obtain ⟨-, -, -, -, hreduced⟩ := htables _ _ _ _ hb
  have hb' := hreduced (hsuits _) (hsuits _)
  let w : Workspace b.geometry := ⟨.replicate _ ⟨.replicate _ 192⟩, Scratch.blank b.geometry⟩
  have hbank : ∀ l, w.bank.get l = ⟨.replicate _ 192⟩ := fun l => Vector.getElem_replicate l.isLt
  refine ⟨_, c, c', _, _, b, rfl, rfl, hmade _, hmade _, hb, hb', fun direction =>
    ⟨w, hbank, (hrun b direction (.leading 1) w).2 hb' fun span _ l k => ?_⟩⟩
  have hmem : Workspace.entryAt b span l ∈ b.entries := Array.getElem_mem _
  have hchannel : (Workspace.entryAt b span l).channel = c :=
    congrArg (·.channel) (Array.mem_singleton.1 hmem)
  rw [hbank, hchannel]
  exact lt_of_eq_of_lt (Vector.getElem_replicate k.isLt) (by decide)

/-- Tables that were made for a larger modulus make a basis with a smaller one, and then not even
a tile of zeros is transformed without an operand that is not reduced. -/
theorem exists_unreduced :
    ∃ (g : Geometry) (c c' : Channel) (forward inverse : Table) (b : Basis),
      c.modulus = 97 ∧ c'.modulus = 193 ∧ forward.MadeFor c' ∧ inverse.MadeFor c' ∧
        ofTables g #[c] #[forward] #[inverse] = .ok b ∧ ¬ b.Reduced ∧
        ∀ direction, Workspace.transformOn Channel.asserting b direction (.leading 1)
          ⟨Bank.zero b.geometry, Scratch.blank b.geometry⟩ = none := by
  let c : Channel := ⟨97, Barrett.ofModulus 97, by decide, by decide, rfl⟩
  let c' : Channel := ⟨193, Barrett.ofModulus 193, by decide, by decide, rfl⟩
  have hmade : ∀ d, (Table.constant smallGeometry d 192).MadeFor c' := fun d =>
    Table.madeFor_constant (by decide)
  refine ⟨_, c, c', _, _, _, rfl, rfl, hmade _, hmade _, ofTables_constant smallGeometry c 192,
    fun h => ?_, ?_⟩
  · have hword := reduced_iff.1 h _ (Array.mem_singleton.2 rfl) .forward 192
      (Array.mem_replicate.2 ⟨by decide, rfl⟩)
    exact absurd hword (by decide)
  · intro direction
    cases direction <;> decide +kernel

end Basis

end RnsEngine
