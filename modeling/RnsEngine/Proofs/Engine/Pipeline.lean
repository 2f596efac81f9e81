import RnsEngine.Proofs.Engine.RoundTrip

/-!
# Polynomials through the engine

The engine computes with polynomials in four invocations: two transforms, an entrywise operation on
their results, and a transform back. `Engine.polynomial_pipeline` says that on an engine with a
derived basis all four succeed on buffers that the basis admits, and that every active channel of
the last buffer is the polynomial that the operation makes of the two given ones, reduced modulo the
modulus of the channel. What each invocation leaves is an operand of the next.
-/

namespace RnsEngine

/-- The coefficients that a channel of a buffer holds, as integers. -/
def Transfer.polynomial (g : Geometry) (data : Array UInt64) (channel : ℕ) : Fin g.ringDim → ℤ :=
  fun k => (data.getD (channel * g.ringDim + k.val) 0).toNat

/-- The residues of a channel are those of its integer coefficients. -/
theorem Transfer.residues_chunk (g : Geometry) (c : Channel) (data : Array UInt64) (channel : ℕ) :
    (chunk g data channel).residues c =
      fun k => Int.castRingHom (ZMod c.modulus.toNat) (polynomial g data channel k) := by
  funext k
  simp only [Tile.residues, words_chunk, polynomial, Channel.residue, eq_intCast, Int.cast_natCast]

/-- A reduced channel whose residues are those of integers holds these integers reduced. -/
theorem Transfer.polynomial_eq_emod {g : Geometry} {c : Channel} {data : Array UInt64}
    {channel : ℕ} (hreduced : (chunk g data channel).Reduced c) {k : Fin g.ringDim} {z : ℤ}
    (hz : (chunk g data channel).residues c k = z) :
    polynomial g data channel k = z % (c.modulus.toNat : ℤ) := by
  have hword : data.getD (channel * g.ringDim + k.val) 0 < c.modulus :=
    words_chunk (g := g) data channel k ▸ hreduced k
  have hlt : polynomial g data channel k < c.modulus.toNat :=
    Int.ofNat_lt.2 (UInt64.lt_iff_toNat_lt.1 hword)
  have hcast : ((polynomial g data channel k : ℤ) : ZMod c.modulus.toNat) = z :=
    (congrFun (residues_chunk g c data channel) k).symm.trans hz
  have hmod := (ZMod.intCast_eq_intCast_iff _ _ _).1 hcast
  exact (Int.emod_eq_of_lt (Int.natCast_nonneg _) hlt).symm.trans hmod

namespace Engine

/-- A combination succeeds on operands of a basis, keeps that basis, and leaves an operand of the
same window. -/
theorem execute_combine_operand {b : Basis} {w : Window} (h : w.Fits b) {e : Engine b.geometry}
    (he : e.Runs b) {left right target : Array UInt64} (hleft : h.Operand left)
    (hright : h.Operand right) (hroom : b.geometry.words w.count ≤ target.size)
    (op : PointwiseOp) :
    let reply := e.execute (.combine op left right target w)
    reply.outcome = .ok none ∧ reply.engine.Runs b ∧ h.Operand reply.buffer ∧
      Transfer.Rewrites b.geometry w.count
        (fun l hl => Tile.zipWith (op.apply (h.entry l hl).channel)
          (Transfer.chunk b.geometry left l) (Transfer.chunk b.geometry right l))
        target reply.buffer := by
  obtain ⟨houtcome, hinstalled, hrewrites⟩ :=
    execute_combine h (runs_iff.1 he) hleft hright hroom op
  refine ⟨houtcome, runs_iff.2 hinstalled, ⟨?_, fun l hl => ?_⟩, hrewrites⟩
  · rw [hrewrites.size_eq]
    exact hroom
  · rw [hrewrites.chunk_eq l hl]
    exact (Tile.zipWith_spec (hleft.reduced l hl) (hright.reduced l hl) op).1

/-- **Arithmetic of polynomials.** On an engine that runs a derived basis, transforming two admitted
buffers, combining the results and transforming back succeeds in every step. In each channel of the
window the coefficients of the last buffer are those of the sum, the difference or the product
modulo `X ^ ringDim + 1` of the given polynomials, reduced modulo the modulus of the channel. -/
theorem polynomial_pipeline {g : Geometry} {b : Basis} (hb : b.Derived g) {w : Window}
    (hcount : w.count ≤ g.capacity) (hstop : w.offset + w.count ≤ b.size)
    {left right target : Array UInt64} (hleft : b.Admits w left) (hright : b.Admits w right)
    (hroom : g.words w.count ≤ target.size) {e : Engine g} (he : e.Runs b) (op : PointwiseOp) :
    let first := e.execute (.transform .forward left w)
    let second := first.engine.execute (.transform .forward right w)
    let combined := second.engine.execute (.combine op first.buffer second.buffer target w)
    let result := combined.engine.execute (.transform .inverse combined.buffer w)
    first.outcome = .ok none ∧ second.outcome = .ok none ∧ combined.outcome = .ok none ∧
      result.outcome = .ok none ∧ result.buffer.size = target.size ∧
      ∀ l < w.count, ∀ k : Fin g.ringDim,
        Transfer.polynomial g result.buffer l k =
          op.onPolynomials (Transfer.polynomial g left l) (Transfer.polynomial g right l) k %
            ((b.moduli.getD (w.offset + l) 0).toNat : ℤ) := by
  obtain ⟨rfl, hroots⟩ := hb.spec
  have h : w.Fits b := ⟨hcount, hstop⟩
  have hleft := hleft.operand h
  have hright := hright.operand h
  -- each invocation keeps the basis and leaves an operand, which is what the next one asks for
  obtain ⟨hfirst, hruns, hleft', hvalues⟩ := execute_transform_operand hroots h he hleft .forward
  obtain ⟨hsecond, hruns, hright', hvalues'⟩ :=
    execute_transform_operand hroots h hruns hright .forward
  obtain ⟨hcombined, hruns, hoperand, hentries⟩ :=
    execute_combine_operand h hruns hleft' hright' hroom op
  obtain ⟨hresult, -, -, hback⟩ := execute_transform_operand hroots h hruns hoperand .inverse
  refine ⟨hfirst, hsecond, hcombined, hresult, hback.size_eq.trans hentries.size_eq,
    fun l hl k => ?_⟩
  obtain ⟨r, hr⟩ := hroots _ (h.entry_mem l hl)
  obtain ⟨hreduced, hresidues⟩ :=
    hr.image_zipWith_image op (hleft.reduced l hl) (hright.reduced l hl)
  rw [← hvalues.chunk_eq l hl, ← hvalues'.chunk_eq l hl, ← hentries.chunk_eq l hl,
    ← hback.chunk_eq l hl] at hreduced hresidues
  rw [← h.modulus_entry l hl]
  refine Transfer.polynomial_eq_emod hreduced ?_
  rw [hresidues, Transfer.residues_chunk, Transfer.residues_chunk, ← eq_intCast
    (Int.castRingHom (ZMod (h.entry l hl).channel.modulus.toNat))]
  exact (PointwiseOp.map_onPolynomials _ op _ _ k).symm

/-- Modulo the smaller of two primes, the product of the powers of degrees fifteen and one of
sixteen coefficients is minus one. -/
theorem polynomial_pipeline_wraps_around :
    ∃ (g : Geometry) (b : Basis) (w : Window) (left right target : Array UInt64),
      b.Derived g ∧ b.Admits w left ∧ b.Admits w right ∧
        let installed := (Engine.blank g).execute (.install b)
        let first := installed.engine.execute (.transform .forward left w)
        let second := first.engine.execute (.transform .forward right w)
        let combined := second.engine.execute (.combine .mul first.buffer second.buffer target w)
        let result := combined.engine.execute (.transform .inverse combined.buffer w)
        result.outcome = .ok none ∧
          ∃ k : Fin g.ringDim, k.val = 0 ∧ Transfer.polynomial g result.buffer 0 k = 96 := by
  obtain ⟨b, hb, hmoduli⟩ := Basis.exists_derived_smallGeometry
  have hstop : 0 + 1 ≤ b.size := by
    rw [← b.size_moduli, hmoduli]
    decide
  have hleft : b.Admits { count := 1, offset := 0 } ((Array.replicate 16 0).set! 15 1) := by
    rw [hb.admits_iff, hmoduli]
    decide
  have hright : b.Admits { count := 1, offset := 0 } ((Array.replicate 16 0).set! 1 1) := by
    rw [hb.admits_iff, hmoduli]
    decide
  have hroom : Basis.smallGeometry.words 1 ≤ (Array.replicate 16 (0 : UInt64)).size := by decide
  obtain ⟨-, hruns⟩ := execute_install_derived hb (Engine.blank _)
  obtain ⟨-, -, -, hresult, -, hwords⟩ :=
    polynomial_pipeline hb (by decide : 1 ≤ Basis.smallGeometry.capacity) hstop hleft hright hroom
      hruns .mul
  refine ⟨_, b, _, _, _, _, hb, hleft, hright, hresult, ⟨0, by decide⟩, rfl, ?_⟩
  rw [hwords 0 (by decide), hmoduli]
  decide +kernel

end Engine

end RnsEngine
