import RnsEngine.Proofs.Basis
import RnsEngine.Proofs.Engine.Run

/-!
# Transforming there and back

On an engine with a derived basis a transform keeps its operands acceptable
(`Engine.execute_transform_operand`), so it may be followed by another. A transform followed by the
one in the opposite direction restores the whole buffer, whatever the state of the engine: this is
`Engine.transform_round_trip`, for every window and either direction first.
-/

namespace RnsEngine

/-- What a derived basis admits, in the sizes of the geometry that it was made for. -/
theorem Basis.Derived.admits_iff {g : Geometry} {b : Basis} (hb : b.Derived g) {w : Window}
    {data : Array UInt64} :
    b.Admits w data ↔ g.words w.count ≤ data.size ∧ ∀ l < w.count, ∀ k < g.ringDim,
      data.getD (l * g.ringDim + k) 0 < b.moduli.getD (w.offset + l) 0 := by
  obtain ⟨rfl, -⟩ := hb.spec
  constructor
  · rintro ⟨hwords, hlt⟩
    exact ⟨hwords, fun l hl k hk => hlt l k hl hk⟩
  · rintro ⟨hwords, hlt⟩
    exact ⟨hwords, fun l k hl hk => hlt l hl k hk⟩

namespace Engine

/-- The basis that is installed. -/
def Runs {g : Geometry} (e : Engine g) (b : Basis) : Prop := e.installed.map (·.val) = some b

/-- An engine of the geometry of a basis runs it when it is the installed one. -/
theorem runs_iff {b : Basis} {e : Engine b.geometry} :
    e.Runs b ↔ e.installed = some ⟨b, rfl⟩ := by
  constructor
  · intro h
    obtain ⟨b', hinstalled, hval⟩ := Option.map_eq_some_iff.1 h
    rw [hinstalled, Option.some_inj]
    exact Subtype.ext hval
  · intro h
    rw [Runs, h]
    rfl

/-- A transform succeeds on an operand of a basis with roots, keeps that basis, and leaves an
operand of the same window. -/
theorem execute_transform_operand {b : Basis} (hb : b.Transforms) {w : Window} (h : w.Fits b)
    {e : Engine b.geometry} (he : e.Runs b) {data : Array UInt64} (hdata : h.Operand data)
    (d : Direction) :
    let reply := e.execute (.transform d data w)
    reply.outcome = .ok none ∧ reply.engine.Runs b ∧ h.Operand reply.buffer ∧
      Transfer.Rewrites b.geometry w.count
        (fun l hl => (h.entry l hl).image d (Transfer.chunk b.geometry data l))
        data reply.buffer := by
  obtain ⟨houtcome, hinstalled, hrewrites⟩ := execute_transform h (runs_iff.1 he) hdata d
  refine ⟨houtcome, runs_iff.2 hinstalled, ⟨?_, fun l hl => ?_⟩, hrewrites⟩
  · rw [hrewrites.size_eq]
    exact hdata.words_le
  · obtain ⟨r, hr⟩ := hb _ (h.entry_mem l hl)
    rw [hrewrites.chunk_eq l hl]
    exact (hr.image_spec d (hdata.reduced l hl)).1

/-- A derived basis can be installed on any engine of the geometry that it was made for. -/
theorem execute_install_derived {g : Geometry} {b : Basis} (hb : b.Derived g) (e : Engine g) :
    (e.execute (.install b)).outcome = .ok none ∧ (e.execute (.install b)).engine.Runs b := by
  obtain ⟨rfl, -⟩ := hb.spec
  rw [execute_install]
  exact ⟨rfl, runs_iff.2 rfl⟩

/-- **Round trips.** A derived basis can be installed on any engine of its geometry. On an engine
that runs it, a transform in either direction of an admitted buffer and the transform back both
succeed, and the buffer is what it was; in between only words of active channels differ. -/
theorem transform_round_trip {g : Geometry} {b : Basis} (hb : b.Derived g) {w : Window}
    (hcount : w.count ≤ g.capacity) (hstop : w.offset + w.count ≤ b.size) {data : Array UInt64}
    (hdata : b.Admits w data) :
    (∀ e : Engine g, (e.execute (.install b)).outcome = .ok none ∧
      (e.execute (.install b)).engine.Runs b) ∧
    ∀ e : Engine g, e.Runs b → ∀ d : Direction,
      let once := e.execute (.transform d data w)
      let twice := once.engine.execute (.transform d.opposite once.buffer w)
      once.outcome = .ok none ∧ twice.outcome = .ok none ∧ twice.buffer = data ∧
        ∀ i, g.words w.count ≤ i → once.buffer[i]? = data[i]? := by
  refine ⟨execute_install_derived hb, fun e he d => ?_⟩
  obtain ⟨rfl, hroots⟩ := hb.spec
  have h : w.Fits b := ⟨hcount, hstop⟩
  have hoperand := hdata.operand h
  obtain ⟨honce, hruns, hagain, hthere⟩ := execute_transform_operand hroots h he hoperand d
  obtain ⟨htwice, -, -, hback⟩ := execute_transform_operand hroots h hruns hagain d.opposite
  refine ⟨honce, htwice, ?_, hthere.tail_eq⟩
  refine Transfer.ext_chunk b.geometry w.count (hback.size_eq.trans hthere.size_eq)
    (fun l hl => ?_) fun i hi => (hback.tail_eq i hi).trans (hthere.tail_eq i hi)
  obtain ⟨r, hr⟩ := hroots _ (h.entry_mem l hl)
  rw [hback.chunk_eq l hl, hthere.chunk_eq l hl]
  exact hr.image_opposite_image d (hoperand.reduced l hl)

/-- A round trip of the greatest reduced words in the second of two channels; one word past it is
not touched. -/
theorem transform_round_trip_second_channel :
    ∃ (g : Geometry) (b : Basis) (w : Window) (data : Array UInt64),
      b.Derived g ∧ w = { count := 1, offset := 1 } ∧ data.size = 17 ∧ b.Admits w data ∧
        ∀ d : Direction,
          let installed := (Engine.blank g).execute (.install b)
          let once := installed.engine.execute (.transform d data w)
          let twice := once.engine.execute (.transform d.opposite once.buffer w)
          once.outcome = .ok none ∧ twice.outcome = .ok none ∧ twice.buffer = data := by
  obtain ⟨b, hb, hmoduli⟩ := Basis.exists_derived_smallGeometry
  have hstop : 1 + 1 ≤ b.size := by
    rw [← b.size_moduli, hmoduli]
    decide
  have hadmits : b.Admits { count := 1, offset := 1 } (Array.replicate 17 192) := by
    rw [hb.admits_iff, hmoduli]
    decide
  obtain ⟨hinstall, hrun⟩ :=
    transform_round_trip hb (by decide : 1 ≤ Basis.smallGeometry.capacity) hstop hadmits
  refine ⟨_, b, _, _, hb, rfl, rfl, hadmits, fun d => ?_⟩
  obtain ⟨honce, htwice, hbuffer, -⟩ := hrun _ (hinstall (Engine.blank _)).2 d
  exact ⟨honce, htwice, hbuffer⟩

end Engine

end RnsEngine
