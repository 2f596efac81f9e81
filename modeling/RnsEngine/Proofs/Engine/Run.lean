import RnsEngine.Engine.Invocation
import RnsEngine.Proofs.Refusal
import RnsEngine.Proofs.Transfer
import RnsEngine.Proofs.Transform.Batch

/-!
# Operations that succeed

An operation of the engine runs through its checks and then writes. For a window that fits an
installed basis (`Window.Fits`) and operands that the window accepts (`Window.Fits.Operand`), every
check passes, and the operation rewrites the buffer of its caller: a transform with the images of
its channels (`Engine.execute_transform`), a combination with its operands combined entry by entry
(`Engine.execute_combine`). The installed basis stays. Nothing is asked of the tables.
-/

namespace RnsEngine

/-! ### Windows that fit -/

/-- The tiles of a window exist, and all its moduli are in the basis. -/
structure Window.Fits (w : Window) (b : Basis) : Prop where
  count_le : w.count ≤ b.geometry.capacity
  stop_le : w.offset + w.count ≤ b.size

namespace Window.Fits

variable {w : Window} {b : Basis} (h : w.Fits b)

/-- The indices of a window that fits. -/
def span : Span b.geometry.capacity b.size := ⟨w.offset, w.count, h.count_le, h.stop_le⟩

/-- A window that fits is admissible. -/
theorem validate : w.validate b.geometry.capacity b.size = .ok h.span :=
  Window.validate_eq_ok_iff.2 ⟨rfl, rfl⟩

/-- A window is admissible when it fits the basis. -/
theorem validate_eq_ok_iff {span : Span b.geometry.capacity b.size} :
    w.validate b.geometry.capacity b.size = .ok span ↔ ∃ h : w.Fits b, h.span = span := by
  constructor
  · intro h
    obtain ⟨start, count, hcount, hstop⟩ := span
    obtain ⟨rfl, rfl⟩ := Window.validate_eq_ok_iff.1 h
    exact ⟨⟨hcount, hstop⟩, rfl⟩
  · rintro ⟨h, rfl⟩
    exact h.validate

/-- The channel of an active tile, with its tables. -/
def entry (l : ℕ) (hl : l < w.count) : TabledChannel b.geometry :=
  Workspace.entryAt b h.span ⟨l, hl⟩

/-- The channels of the window are those of the basis. -/
theorem entry_mem (l : ℕ) (hl : l < w.count) : h.entry l hl ∈ b.entries := Array.getElem_mem _

/-- The modulus of an active tile is the one with its index. -/
theorem modulus_entry (l : ℕ) (hl : l < w.count) :
    (h.entry l hl).channel.modulus = b.moduli.getD (w.offset + l) 0 := by
  have hlt : w.offset + l < b.entries.size := h.span.index_lt hl
  simp [Basis.moduli, Array.getD_eq_getD_getElem?, hlt, entry, Workspace.entryAt, span]

/-- A buffer with enough words, reduced in the channels of the window. -/
structure Operand (data : Array UInt64) : Prop where
  words_le : b.geometry.words w.count ≤ data.size
  reduced : ∀ l hl, (Transfer.chunk b.geometry data l).Reduced (h.entry l hl).channel

end Window.Fits

/-- A buffer has enough words for a window, and every word of an active channel is below the modulus
of that channel. -/
structure Basis.Admits (b : Basis) (w : Window) (data : Array UInt64) : Prop where
  words_le : b.geometry.words w.count ≤ data.size
  word_lt : ∀ l k, l < w.count → k < b.geometry.ringDim →
    data.getD (l * b.geometry.ringDim + k) 0 < b.moduli.getD (w.offset + l) 0

/-- For a window that fits, what the basis admits is an operand. -/
theorem Basis.Admits.operand {b : Basis} {w : Window} {data : Array UInt64}
    (hdata : b.Admits w data) (h : w.Fits b) : h.Operand data where
  words_le := hdata.words_le
  reduced l hl k := by
    rw [Transfer.words_chunk, h.modulus_entry l hl]
    exact hdata.word_lt l k hl k.isLt

namespace Engine

/-! ### Steps of an action -/

section Steps

variable {g : Geometry} {α β : Type}

/-- After a step that succeeds, the action goes on with its result. -/
theorem bind_ok {x : Action g α} {f : α → Action g β} {s s' : Session g} {a : α}
    (h : x s = (.ok a, s')) : (x >>= f) s = f a s' :=
  bind_apply_of_ok h

/-- After a step that is refused, the action is refused with it. -/
theorem bind_error {x : Action g α} {f : α → Action g β} {s s' : Session g} {fault : Fault}
    (h : x s = (.error fault, s')) : (x >>= f) s = (.error fault, s') :=
  bind_apply_of_error h

/-- Reading the session. -/
theorem get_ok (s : Session g) : (get : Action g (Session g)) s = (.ok s, s) := rfl

/-- Changing the session. -/
theorem modify_ok (f : Session g → Session g) (s : Session g) :
    (modify f : Action g PUnit) s = (.ok (), f s) := rfl

/-- A check that passes leaves the session alone. -/
theorem settle_ok {r : Except Fault α} {a : α} (h : r = .ok a) (s : Session g) :
    settle r s = (.ok a, s) := by
  rw [settle, h]

/-- A check that is refused leaves the session alone. -/
theorem settle_error {r : Except Fault α} {fault : Fault} (h : r = .error fault) (s : Session g) :
    settle r s = (.error fault, s) := by
  rw [settle, h]

/-- The installed basis is found. -/
theorem basis_ok {s : Session g} {b : { b : Basis // b.geometry = g }}
    (h : s.engine.installed = some b) : basis s = (.ok b, s) := by
  rw [basis, bind_ok (get_ok s), h]
  rfl

/-- Staging on the left changes the left bank. -/
theorem loadLeft_ok {s : Session g} {source : Array UInt64} {count : ℕ} {bank : Bank g}
    (h : Transfer.load source s.engine.left count = .ok bank) :
    loadLeft source count s = (.ok (), { s with engine := { s.engine with left := bank } }) := by
  rw [loadLeft, bind_ok (get_ok s), bind_ok (settle_ok h s), modify_ok]

/-- Staging on the left is refused with nothing changed. -/
theorem loadLeft_error {s : Session g} {source : Array UInt64} {count : ℕ} {fault : Fault}
    (h : Transfer.load source s.engine.left count = .error fault) :
    loadLeft source count s = (.error fault, s) := by
  rw [loadLeft, bind_ok (get_ok s), bind_error (settle_error h s)]

/-- Staging on the right changes the right bank. -/
theorem loadRight_ok {s : Session g} {source : Array UInt64} {count : ℕ} {bank : Bank g}
    (h : Transfer.load source s.engine.right count = .ok bank) :
    loadRight source count s = (.ok (), { s with engine := { s.engine with right := bank } }) := by
  rw [loadRight, bind_ok (get_ok s), bind_ok (settle_ok h s), modify_ok]

/-- Staging on the right is refused with nothing changed. -/
theorem loadRight_error {s : Session g} {source : Array UInt64} {count : ℕ} {fault : Fault}
    (h : Transfer.load source s.engine.right count = .error fault) :
    loadRight source count s = (.error fault, s) := by
  rw [loadRight, bind_ok (get_ok s), bind_error (settle_error h s)]

/-- Copying back changes the buffer. -/
theorem storeLeft_ok {s : Session g} {count : ℕ} {written : Array UInt64}
    (h : Transfer.store s.engine.left s.buffer count = .ok written) :
    storeLeft count s = (.ok (), { s with buffer := written }) := by
  rw [storeLeft, bind_ok (get_ok s), bind_ok (settle_ok h s), modify_ok]

end Steps

/-! ### Checks -/

variable {b : Basis}

/-- The check of a bank passes exactly when every active tile is reduced. -/
theorem checkReduced_eq_ok_iff {span : Span b.geometry.capacity b.size} {bank : Bank b.geometry} :
    checkReduced b span bank = .ok () ↔ ∀ l : Fin span.count,
      (bank.get (span.tile l)).Reduced (Workspace.entryAt b span l).channel := by
  have hnone : checkReduced b span bank = .ok () ↔ firstUnreduced? b span bank = none := by
    unfold checkReduced
    split <;> simp [*]
  rw [hnone, firstUnreduced?, List.findSome?_eq_none_iff]
  simp only [List.mem_finRange, forall_true_left, Option.map_eq_none_iff,
    Tile.reduced_iff_firstUnreduced?, Workspace.entryAt]

/-- What the check finds of a bank is what it finds of the buffer that the bank holds. -/
theorem checkReduced_of_holds {g : Geometry} {span : Span g.capacity b.size} {bank : Bank g}
    {data : Array UInt64} (h : Transfer.Holds bank data span.count) :
    checkReduced b span bank = checkReduced b span (Transfer.chunks g data) := by
  have htile : ∀ l : Fin span.count,
      bank.get (span.tile l) = (Transfer.chunks g data).get (span.tile l) := by
    intro l
    rw [Transfer.get_chunks]
    exact h _ (span.tile l).isLt l.isLt
  simp only [checkReduced, firstUnreduced?, htile]

/-- There is room when the buffer has the words of the active tiles. -/
theorem checkRoom_eq_ok_iff {g : Geometry} {count size : ℕ} :
    checkRoom (g := g) count size = .ok () ↔ g.words count ≤ size := by
  rw [checkRoom, ← Nat.not_lt]
  split <;> simp [*]

/-- Room for the leading channels. -/
theorem fits_of_operand {w : Window} {h : w.Fits b} {data : Array UInt64}
    (hdata : h.Operand data) : Transfer.Fits b.geometry w.count data.size :=
  ⟨h.count_le, hdata.words_le⟩

/-- A buffer is an operand when it can be staged and its channels pass the check. -/
theorem operand_iff {w : Window} (h : w.Fits b) {data : Array UInt64} :
    h.Operand data ↔ Transfer.checkSource b.geometry w.count data.size = .ok () ∧
      checkReduced b h.span (Transfer.chunks b.geometry data) = .ok () := by
  simp only [Transfer.checkSource_eq_ok_iff, checkReduced_eq_ok_iff, Transfer.get_chunks]
  constructor
  · intro hdata
    exact ⟨fits_of_operand hdata, fun l => hdata.reduced l.val l.isLt⟩
  · rintro ⟨hfits, hreduced⟩
    exact ⟨hfits.2, fun l hl => hreduced ⟨l, hl⟩⟩

/-- A staged operand passes the check. -/
theorem checkReduced_of_operand {w : Window} {h : w.Fits b} {data : Array UInt64}
    (hdata : h.Operand data) {bank : Bank b.geometry}
    (hbank : Transfer.Holds bank data w.count) : checkReduced b h.span bank = .ok () := by
  rw [checkReduced_of_holds hbank]
  exact ((operand_iff h).1 hdata).2

/-- Staging an operand succeeds, and then the bank holds it. -/
theorem load_operand {w : Window} {h : w.Fits b} {data : Array UInt64} (hdata : h.Operand data)
    (bank : Bank b.geometry) :
    ∃ filled, Transfer.load data bank w.count = .ok filled ∧
      Transfer.Holds filled data w.count :=
  Transfer.load_holds bank (fits_of_operand hdata)

/-! ### Operations -/

/-- A transform of an operand succeeds, keeps the installed basis, and rewrites the buffer with the
images of its channels. -/
theorem transform_ok {w : Window} (h : w.Fits b) {s : Session b.geometry}
    (hs : s.engine.installed = some ⟨b, rfl⟩) (hdata : h.Operand s.buffer) (d : Direction) :
    ∃ s', transform d w s = (.ok (), s') ∧ s'.engine.installed = s.engine.installed ∧
      Transfer.Rewrites b.geometry w.count
        (fun l hl => (h.entry l hl).image d (Transfer.chunk b.geometry s.buffer l))
        s.buffer s'.buffer := by
  -- the buffer is staged, checked, transformed and copied back; none of the steps is refused
  obtain ⟨bank, hload, htiles⟩ := load_operand hdata s.engine.left
  have hcheck := checkReduced_of_operand hdata htiles
  let result := Workspace.transformSpan b rfl d h.span { bank, scratch := s.engine.scratch }
  have hresult : Workspace.transform b d w { bank, scratch := s.engine.scratch } = .ok result := by
    rw [Workspace.transform, dif_pos rfl, h.validate]
    rfl
  obtain ⟨written, hstore, hwritten⟩ := Transfer.store_spec result.bank (fits_of_operand hdata)
  let done : Engine b.geometry := { s.engine with left := result.bank, scratch := result.scratch }
  refine ⟨{ engine := done, buffer := written }, ?_, rfl, hwritten.size_eq, fun l hl => ?_,
    hwritten.tail_eq⟩
  · rw [transform, bind_ok (basis_ok hs), bind_ok (settle_ok h.validate s), bind_ok (get_ok s),
      bind_ok (loadLeft_ok hload), bind_ok (get_ok _), bind_ok (settle_ok hcheck _),
      bind_ok (get_ok _), bind_ok (settle_ok hresult _), bind_ok (modify_ok _ _)]
    exact storeLeft_ok hstore
  · have hcapacity := Nat.lt_of_lt_of_le hl h.count_le
    rw [hwritten.chunk_eq l hl, ← htiles l hcapacity hl]
    exact Workspace.bank_transformSpan b d h.span _ ⟨l, hl⟩ hcapacity

/-- A combination of two operands succeeds where the buffer has room, keeps the installed basis, and
rewrites the buffer with the channels combined entry by entry. -/
theorem combine_ok {w : Window} (h : w.Fits b) {s : Session b.geometry}
    (hs : s.engine.installed = some ⟨b, rfl⟩) {left right : Array UInt64} (hleft : h.Operand left)
    (hright : h.Operand right) (hroom : b.geometry.words w.count ≤ s.buffer.size)
    (op : PointwiseOp) :
    ∃ s', combine op left right w s = (.ok (), s') ∧ s'.engine.installed = s.engine.installed ∧
      Transfer.Rewrites b.geometry w.count
        (fun l hl => Tile.zipWith (op.apply (h.entry l hl).channel)
          (Transfer.chunk b.geometry left l) (Transfer.chunk b.geometry right l))
        s.buffer s'.buffer := by
  obtain ⟨bankLeft, hloadLeft, htilesLeft⟩ := load_operand hleft s.engine.left
  obtain ⟨bankRight, hloadRight, htilesRight⟩ := load_operand hright s.engine.right
  have hcheckLeft := checkReduced_of_operand hleft htilesLeft
  have hcheckRight := checkReduced_of_operand hright htilesRight
  have hcheckRoom := checkRoom_eq_ok_iff.2 hroom
  have hspan : w.validate b.geometry.capacity b.channels.size =
      .ok ⟨w.offset, w.count, h.count_le, b.size_channels.symm ▸ h.stop_le⟩ :=
    Window.validate_eq_ok_iff.2 ⟨rfl, rfl⟩
  -- the window is checked a second time, against the channels of the basis
  obtain ⟨result, hresult, htiles⟩ : ∃ result,
      Pointwise.assign op bankLeft bankRight b.channels w = .ok result ∧
        ∀ l (hl : l < b.geometry.capacity) (hactive : l < w.count), getElem result l hl =
          Tile.zipWith (op.apply (h.entry l hactive).channel) (getElem bankLeft l hl)
            (getElem bankRight l hl) := by
    refine ⟨_, by rw [Pointwise.assign, hspan]; rfl, fun l hl hactive => ?_⟩
    rw [Vector.getElem_mapFinIdx, dif_pos hactive]
    simp [Pointwise.channelAt, Basis.channels, Window.Fits.entry, Workspace.entryAt,
      Window.Fits.span]
  obtain ⟨written, hstore, hwritten⟩ := Transfer.store_spec result ⟨h.count_le, hroom⟩
  let staged : Session b.geometry := { s with engine := { s.engine with left := bankLeft } }
  let done : Engine b.geometry := { s.engine with left := result, right := bankRight }
  refine ⟨{ engine := done, buffer := written }, ?_, rfl, hwritten.size_eq, fun l hl => ?_,
    hwritten.tail_eq⟩
  · rw [combine, bind_ok (basis_ok hs), bind_ok (settle_ok h.validate s),
      bind_ok (loadLeft_ok hloadLeft), bind_ok (loadRight_ok (s := staged) hloadRight),
      bind_ok (get_ok _), bind_ok (settle_ok hcheckLeft _), bind_ok (get_ok _),
      bind_ok (settle_ok hcheckRight _), bind_ok (get_ok _), bind_ok (settle_ok hcheckRoom _),
      bind_ok (get_ok _), bind_ok (settle_ok hresult _), bind_ok (modify_ok _ _)]
    exact storeLeft_ok hstore
  · have hcapacity := Nat.lt_of_lt_of_le hl h.count_le
    rw [hwritten.chunk_eq l hl, htiles l hcapacity hl, htilesLeft l hcapacity hl,
      htilesRight l hcapacity hl]

/-! ### Invocations -/

/-- Installing a basis of the geometry of the engine succeeds and changes nothing else. -/
theorem execute_install (e : Engine b.geometry) :
    e.execute (.install b) =
      { outcome := .ok none, engine := { e with installed := some ⟨b, rfl⟩ }, buffer := #[] } := by
  have hinstall : install b { engine := e, buffer := #[] } =
      (.ok (), { engine := { e with installed := some ⟨b, rfl⟩ }, buffer := #[] }) := by
    rw [install, dif_pos rfl, modify_ok]
  simp only [execute, Invocation.action, Invocation.target]
  rw [bind_ok hinstall]
  rfl

/-- A transform of an operand, as an invocation. -/
theorem execute_transform {w : Window} (h : w.Fits b) {e : Engine b.geometry}
    (he : e.installed = some ⟨b, rfl⟩) {data : Array UInt64} (hdata : h.Operand data)
    (d : Direction) :
    let reply := e.execute (.transform d data w)
    reply.outcome = .ok none ∧ reply.engine.installed = some ⟨b, rfl⟩ ∧
      Transfer.Rewrites b.geometry w.count
        (fun l hl => (h.entry l hl).image d (Transfer.chunk b.geometry data l))
        data reply.buffer := by
  obtain ⟨s', hrun, hinstalled, hrewrites⟩ :=
    transform_ok h (show (Session.mk e data).engine.installed = _ from he) hdata d
  have hreply : e.execute (.transform d data w) =
      { outcome := .ok none, engine := s'.engine, buffer := s'.buffer } := by
    simp only [execute, Invocation.action, Invocation.target]
    rw [bind_ok hrun]
    rfl
  rw [hreply]
  exact ⟨rfl, hinstalled.trans he, hrewrites⟩

/-- A combination of two operands, as an invocation. -/
theorem execute_combine {w : Window} (h : w.Fits b) {e : Engine b.geometry}
    (he : e.installed = some ⟨b, rfl⟩) {left right target : Array UInt64} (hleft : h.Operand left)
    (hright : h.Operand right) (hroom : b.geometry.words w.count ≤ target.size)
    (op : PointwiseOp) :
    let reply := e.execute (.combine op left right target w)
    reply.outcome = .ok none ∧ reply.engine.installed = some ⟨b, rfl⟩ ∧
      Transfer.Rewrites b.geometry w.count
        (fun l hl => Tile.zipWith (op.apply (h.entry l hl).channel)
          (Transfer.chunk b.geometry left l) (Transfer.chunk b.geometry right l))
        target reply.buffer := by
  obtain ⟨s', hrun, hinstalled, hrewrites⟩ :=
    combine_ok h (show (Session.mk e target).engine.installed = _ from he) hleft hright hroom op
  have hreply : e.execute (.combine op left right target w) =
      { outcome := .ok none, engine := s'.engine, buffer := s'.buffer } := by
    simp only [execute, Invocation.action, Invocation.target]
    rw [bind_ok hrun]
    rfl
  rw [hreply]
  exact ⟨rfl, hinstalled.trans he, hrewrites⟩

end Engine

end RnsEngine
