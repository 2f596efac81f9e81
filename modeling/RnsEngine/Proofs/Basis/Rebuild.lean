import RnsEngine.Proofs.Transform.Reduced

/-!
# Bases from their parts

A basis is taken apart into channels and tables of either direction (`Basis.parts`). All of them are
known by their words: each channel can be built again from its constants, each table from its words
in the channel with its index (`Basis.Parts.rebuild`), and from the parts the basis
(`Basis.Parts.assemble`). What is checked on the way holds of every basis whose tables are reduced,
and so of every derived one: the way back leads to the same basis, and only with all tables in their
places (`Basis.rebuild_derived`).
-/

namespace RnsEngine

/-- A channel is built again from its own constants. -/
theorem Channel.ofConstants_constants (c : Channel) :
    Channel.ofConstants c.modulus c.constants.multiplier (UInt64.ofNat c.constants.bits) =
      .ok c := by
  have hbits : (UInt64.ofNat c.constants.bits).toNat = c.constants.bits :=
    UInt64.toNat_ofNat_of_lt' (Nat.lt_of_le_of_lt c.bits_le (by decide))
  have hcheck : Barrett.check c.modulus c.constants.multiplier (UInt64.ofNat c.constants.bits) =
      .ok c.constants := by
    rw [Barrett.check, hbits, c.constants_eq]
    exact if_pos ⟨rfl, rfl⟩
  rw [Channel.ofConstants, c.ofModulus_modulus, ok_bind, hcheck, ok_bind]
  rfl

namespace Basis

variable {g : Geometry} {b : Basis}

/-! ### Parts -/

/-- What a basis consists of: channels, and tables of either direction. -/
structure Parts where
  channels : Array Channel
  forward : Array Table
  inverse : Array Table

/-- The parts of a basis. -/
def parts (b : Basis) : Parts := ⟨b.channels, b.tables .forward, b.tables .inverse⟩

namespace Parts

/-- The basis that the parts make. -/
def assemble (g : Geometry) (p : Parts) : Except Fault Basis :=
  ofTables g p.channels p.forward p.inverse

/-- Takes over the words of each table, for the channel with its index. -/
def rebuildTables (g : Geometry) (channels : List Channel) (tables : Array Table) :
    Except Fault (List Table) :=
  (channels.zip tables.toList).mapM fun p => Table.ofWords g p.1 p.2.words p.2.direction

/-- Builds every part again, each channel from its constants and each table from its words. -/
def rebuild (g : Geometry) (p : Parts) : Except Fault Parts := do
  let channels ← p.channels.toList.mapM fun c =>
    Channel.ofConstants c.modulus c.constants.multiplier (UInt64.ofNat c.constants.bits)
  let forward ← rebuildTables g channels p.forward
  let inverse ← rebuildTables g channels p.inverse
  return ⟨channels.toArray, forward.toArray, inverse.toArray⟩

/-- The tables of a direction. -/
def tables (p : Parts) : Direction → Array Table
  | .forward => p.forward
  | .inverse => p.inverse

/-- The parts with the tables of one direction in the place of those of the other. -/
def swap (p : Parts) : Parts := { p with forward := p.inverse, inverse := p.forward }

/-- The parts without one of the tables of a direction. -/
def drop (p : Parts) (direction : Direction) (i : ℕ) : Parts :=
  match direction with
  | .forward => { p with forward := p.forward.eraseIdxIfInBounds i }
  | .inverse => { p with inverse := p.inverse.eraseIdxIfInBounds i }

end Parts

/-! ### Assembling -/

/-- A basis has a channel. -/
theorem channels_pos (b : Basis) : 0 < b.channels.size :=
  b.entries_pos.trans_eq b.size_channels.symm

/-- There are as many tables of a direction as channels. -/
theorem size_tables (b : Basis) (d : Direction) : (b.tables d).size = b.size := by
  simp [tables, size]

/-- The tables of a basis fit. -/
theorem fits_of_mem_tables {d : Direction} : ∀ t ∈ b.tables d, t.Fits b.geometry d := by
  intro t ht
  obtain ⟨e, -, rfl⟩ := Array.mem_map.1 ht
  exact e.table_fits d

/-- Without one of its tables a basis has too few of them. -/
theorem check_eraseIdx {d : Direction} {i : ℕ} (hi : i < b.size) :
    check b.geometry d b.channels.size ((b.tables d).eraseIdxIfInBounds i) =
      .error (.lengthMismatch .tablesPerChannel b.size (b.size - 1)) := by
  have hsize : ((b.tables d).eraseIdxIfInBounds i).size = b.size - 1 := by
    rw [Array.eraseIdxIfInBounds, dif_pos (hi.trans_eq (b.size_tables d).symm),
      Array.size_eraseIdx, size_tables]
  have hne : ((b.tables d).eraseIdxIfInBounds i).size ≠ b.channels.size := by
    rw [hsize, size_channels]
    omega
  rw [check, dif_neg hne, hsize, size_channels]

/-- The tables of a basis serve no other direction than their own. -/
theorem check_of_ne {d d' : Direction} (h : d' ≠ d) :
    check b.geometry d b.channels.size (b.tables d') = .error .geometryMismatch := by
  have hpos : 0 < (b.tables d').size := b.entries_pos.trans_eq (b.size_tables d').symm
  have hnot : ¬ ∀ t ∈ b.tables d', t.Fits b.geometry d := by
    intro hall
    have hmem := Array.getElem_mem hpos
    exact h ((fits_of_mem_tables _ hmem).1.symm.trans (hall _ hmem).1)
  rw [check, dif_pos ((b.size_tables d').trans b.size_channels.symm), dif_neg hnot]

/-- The tables of a basis pass the check of their direction. -/
theorem exists_check (b : Basis) (d : Direction) :
    ∃ checked : Checked b.geometry d b.channels.size,
      check b.geometry d b.channels.size (b.tables d) = .ok checked ∧
        checked.tables = b.tables d :=
  ⟨⟨_, (b.size_tables d).trans b.size_channels.symm, fits_of_mem_tables⟩,
    (dif_pos _).trans (dif_pos _), rfl⟩

/-- The parts of a basis make the basis. -/
theorem assemble_parts (b : Basis) : b.parts.assemble b.geometry = .ok b := by
  obtain ⟨f, hforward, hf⟩ := b.exists_check .forward
  obtain ⟨i, hinverse, hi⟩ := b.exists_check .inverse
  have hjoin : join b.geometry b.channels f i = b.entries := by
    refine Array.ext ((size_join ..).trans b.size_channels) fun k hk hk' => ?_
    simp [join, channels, hf, hi, tables, TabledChannel.table]
  have hmk : ∀ (entries : Array (TabledChannel b.geometry)) (h : 0 < entries.size),
      entries = b.entries → (⟨b.geometry, entries, h⟩ : Basis) = b := by
    rintro _ _ rfl
    rfl
  rw [Parts.assemble, parts, ofTables, dif_pos b.channels_pos, hforward, ok_bind, hinverse, ok_bind]
  exact congrArg Except.ok (hmk _ _ hjoin)

/-- With the tables of the directions exchanged the parts make no basis. -/
theorem assemble_swap (b : Basis) :
    b.parts.swap.assemble b.geometry = .error .geometryMismatch := by
  have hcheck : check b.geometry .forward b.channels.size (b.tables .inverse) =
      .error .geometryMismatch := check_of_ne nofun
  rw [Parts.assemble, Parts.swap, parts, ofTables, dif_pos b.channels_pos, hcheck, error_bind]

/-- Without one of the tables the parts make no basis. -/
theorem assemble_drop (b : Basis) (d : Direction) {i : ℕ} (hi : i < b.size) :
    (b.parts.drop d i).assemble b.geometry =
      .error (.lengthMismatch .tablesPerChannel b.size (b.size - 1)) := by
  cases d with
  | forward =>
    rw [Parts.assemble, Parts.drop, parts, ofTables, dif_pos b.channels_pos, check_eraseIdx hi,
      error_bind]
  | inverse =>
    -- the forward tables are checked first, and pass
    obtain ⟨f, hforward, -⟩ := b.exists_check .forward
    rw [Parts.assemble, Parts.drop, parts, ofTables, dif_pos b.channels_pos, hforward, ok_bind,
      check_eraseIdx hi, error_bind]

/-! ### Rebuilding -/

/-- The tables of a direction are built again when they are reduced. -/
theorem rebuildTables_eq (h : b.Reduced) (d : Direction) :
    Parts.rebuildTables b.geometry b.channels.toList (b.tables d) = .ok (b.tables d).toList := by
  have hzip : b.channels.toList.zip (b.tables d).toList =
      b.entries.toList.map fun e => (e.channel, e.table d) := by
    rw [channels, tables, Array.toList_map, Array.toList_map, List.zip_map']
  have hstep : ∀ e ∈ b.entries.toList, Table.ofWords b.geometry e.channel (e.table d).words
      (e.table d).direction = .ok (e.table d) := fun e he =>
    Table.ofWords_eq_ok_iff.2
      ⟨(e.table_fits d).2, rfl, reduced_iff.1 h e (Array.mem_toList_iff.1 he) d⟩
  rw [Parts.rebuildTables, hzip, List.mapM_map, tables, Array.toList_map]
  exact mapM_eq_ok_map hstep

/-- The parts of a reduced basis are built again as they are. -/
theorem rebuild_parts (h : b.Reduced) : b.parts.rebuild b.geometry = .ok b.parts := by
  have hchannels : (b.channels.toList.mapM fun c => Channel.ofConstants c.modulus
      c.constants.multiplier (UInt64.ofNat c.constants.bits)) = .ok b.channels.toList := by
    have hmap := List.map_id b.channels.toList
    exact (mapM_eq_ok_map fun c _ => c.ofConstants_constants).trans (congrArg Except.ok hmap)
  rw [Parts.rebuild, parts, hchannels, ok_bind, rebuildTables_eq h, ok_bind, rebuildTables_eq h,
    ok_bind]
  rfl

/-- **Rebuilding.** The parts of a derived basis can be built again: every channel from its
constants, every table from its words in the channel with its index, and from all of them the same
basis. With the tables of the two directions exchanged, or without one table of either, the rebuilt
parts make no basis. -/
theorem rebuild_derived (h : b.Derived g) :
    ∃ p, b.parts.rebuild g = .ok p ∧ p.assemble g = .ok b ∧
      p.swap.assemble g = .error .geometryMismatch ∧
      ∀ d, (p.tables d).size = b.size ∧ ∀ i < b.size, (p.drop d i).assemble g =
        .error (.lengthMismatch .tablesPerChannel b.size (b.size - 1)) := by
  obtain ⟨rfl, -⟩ := h.spec
  exact ⟨b.parts, rebuild_parts h.reduced, b.assemble_parts, b.assemble_swap, fun d =>
    ⟨by cases d <;> exact b.size_tables _, fun _ hi => b.assemble_drop d hi⟩⟩

/-- The basis of two primes is rebuilt, but not without the backward table of the second. -/
theorem rebuild_derived_two_primes :
    ∃ (g : Geometry) (b : Basis) (p : Basis.Parts), b.Derived g ∧ b.moduli = #[97, 193] ∧
      b.parts.rebuild g = .ok p ∧ p.assemble g = .ok b ∧
      p.swap.assemble g = .error .geometryMismatch ∧
      (p.drop .inverse 1).assemble g = .error (.lengthMismatch .tablesPerChannel 2 1) := by
  obtain ⟨b, hb, hmoduli⟩ := exists_derived_smallGeometry
  have hsize : b.size = 2 := by
    rw [← b.size_moduli, hmoduli]
    rfl
  obtain ⟨p, hrebuild, hassemble, hswap, hdrop⟩ := rebuild_derived hb
  have hlast := (hdrop .inverse).2 1 (hsize ▸ Nat.one_lt_two)
  rw [hsize] at hlast
  exact ⟨_, b, p, hb, hmoduli, hrebuild, hassemble, hswap, hlast⟩

end Basis

end RnsEngine
