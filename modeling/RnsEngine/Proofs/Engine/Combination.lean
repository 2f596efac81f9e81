import Mathlib.Data.List.FinRange
import RnsEngine.Proofs.Engine.Atomicity
import RnsEngine.Proofs.Engine.Pipeline

/-!
# Combinations

What a combination of two buffers asks for, why it is refused, and what it computes:
`Engine.combine_exact`. The checks are listed in `Basis.combineChecks`, in the order in which they
are made; the first that does not pass gives the fault.

The engine looks for a word that is not reduced in its tiles, one after the other. Since the tiles
are staged in the order of their addresses, this finds the first such word in the buffer
(`Engine.checkReduced_chunks`).
-/

namespace RnsEngine

/-- Searching row after row is searching in the order of the addresses. -/
theorem findSome?_range_mul {α : Type} (f : ℕ → Option α) (m n : ℕ) :
    (List.range (m * n)).findSome? f =
      (List.range m).findSome? fun l => (List.finRange n).findSome? fun k => f (l * n + k.val) := by
  induction m with
  | zero => rw [Nat.zero_mul]; rfl
  | succ m ih =>
    have hrow : ((List.range n).map (m * n + ·)).findSome? f =
        (List.finRange n).findSome? fun k => f (m * n + k.val) := by
      rw [← List.map_coe_finRange_eq_range, List.map_map, List.findSome?_map]
      rfl
    rw [Nat.succ_mul, List.range_add, List.findSome?_append, ih, hrow, List.range_succ,
      List.findSome?_append, List.findSome?_singleton]

/-! ### The checks of a combination -/

namespace Basis

variable (b : Basis) (w : Window)

/-- The check of the word with an address, against the modulus of its channel in a window. -/
def checkWord (data : Array UInt64) (i : ℕ) : Option Fault :=
  let x := data.getD i 0
  let q := b.moduli.getD (w.offset + i / b.geometry.ringDim) 0
  reasonUnless (x < q) (.operandOutOfRange .residue x q)

/-- What the checks of a combination find, in their order. The words of either input are checked in
the order of their addresses. -/
def combineChecks (left right target : Array UInt64) : List (Option Fault) :=
  let words := b.geometry.words w.count
  [ reasonUnless (w.count ≤ b.geometry.capacity) (.tooManyChannels w.count b.geometry.capacity),
    reasonUnless (w.offset + w.count ≤ b.size)
      (.windowOutOfRange w.offset (min (w.offset + w.count) Window.maxWord) b.size),
    reasonUnless (words ≤ left.size) (.bufferTooShort .transferSource words left.size),
    reasonUnless (words ≤ right.size) (.bufferTooShort .transferSource words right.size),
    (List.range words).findSome? (b.checkWord w left),
    (List.range words).findSome? (b.checkWord w right),
    reasonUnless (words ≤ target.size) (.bufferTooShort .transferTarget words target.size) ]

/-- A word of a channel is checked against the modulus of that channel. -/
theorem checkWord_address (data : Array UInt64) (l : ℕ) (k : Fin b.geometry.ringDim) :
    b.checkWord w data (l * b.geometry.ringDim + k.val) =
      let x := data.getD (l * b.geometry.ringDim + k.val) 0
      let q := b.moduli.getD (w.offset + l) 0
      reasonUnless (x < q) (.operandOutOfRange .residue x q) := by
  rw [checkWord, Transfer.address_div l k.isLt]

end Basis

/-- When the tiles exist, a buffer can be staged unless it is too short. -/
theorem Transfer.checkSource_eq {g : Geometry} {count : ℕ} (h : count ≤ g.capacity) (size : ℕ) :
    checkSource g count size = resultUnless (reasonUnless (g.words count ≤ size)
      (.bufferTooShort .transferSource (g.words count) size)) () := by
  by_cases hsize : g.words count ≤ size
  · rw [resultUnless_of_holds hsize, checkSource, if_pos ⟨h, hsize⟩]
  · have hnot : ¬ Fits g count size := fun hfits => hsize hfits.2
    rw [resultUnless_of_not_holds hsize, checkSource, if_neg hnot, refusal,
      if_neg (Nat.not_lt.2 h)]

/-- The search in the tile of a channel is the search in the words of that channel. -/
theorem Transfer.firstUnreduced?_chunk (g : Geometry) (data : Array UInt64) (l : ℕ) (q : UInt64) :
    (((chunk g data l).firstUnreduced? q).map fun x => Fault.operandOutOfRange .residue x q) =
      (List.finRange g.ringDim).findSome? fun k =>
        let x := data.getD (l * g.ringDim + k.val) 0
        reasonUnless (x < q) (.operandOutOfRange .residue x q) := by
  rw [Tile.firstUnreduced?, List.find?_eq_findSome?_guard, List.map_findSome?, chunk,
    Vector.toList_ofFn, List.ofFn_eq_map, List.findSome?_map]
  refine congrArg (List.findSome? · (List.finRange _)) (funext fun k => ?_)
  simp only [Function.comp_apply, Option.guard, reasonUnless]
  generalize data.getD (l * g.ringDim + k.val) 0 = x
  by_cases h : x < q
  · simp [h, UInt64.not_le.2 h]
  · simp [h, UInt64.not_lt.1 h]

namespace Engine

variable {b : Basis} {w : Window}

/-- The check of the tiles that a staged buffer fills is the check of its words. -/
theorem checkReduced_chunks (h : w.Fits b) (data : Array UInt64) :
    checkReduced b h.span (Transfer.chunks b.geometry data) =
      resultUnless ((List.range (b.geometry.words w.count)).findSome? (b.checkWord w data)) () := by
  have hmodulus : ∀ l : Fin w.count, (Workspace.entryAt b h.span l).channel.modulus =
      b.moduli.getD (w.offset + l.val) 0 := fun l => h.modulus_entry l.val l.isLt
  have hfirst : firstUnreduced? b h.span (Transfer.chunks b.geometry data) =
      (List.range (b.geometry.words w.count)).findSome? (b.checkWord w data) := by
    rw [Geometry.words, findSome?_range_mul, ← List.map_coe_finRange_eq_range,
      List.findSome?_map, firstUnreduced?]
    refine congrArg (List.findSome? · (List.finRange w.count)) (funext fun l => ?_)
    simp only [Basis.checkWord_address, Transfer.get_chunks]
    rw [hmodulus l]
    exact Transfer.firstUnreduced?_chunk b.geometry data l.val _
  rw [← hfirst, checkReduced]
  cases firstUnreduced? b h.span (Transfer.chunks b.geometry data) <;> rfl

/-- There is room unless the buffer is too short. -/
theorem checkRoom_eq (g : Geometry) (count size : ℕ) :
    checkRoom (g := g) count size = resultUnless (reasonUnless (g.words count ≤ size)
      (.bufferTooShort .transferTarget (g.words count) size)) () := by
  by_cases hsize : g.words count ≤ size
  · rw [resultUnless_of_holds hsize, checkRoom, if_neg (Nat.not_lt.2 hsize)]
  · rw [resultUnless_of_not_holds hsize, checkRoom, if_pos (Nat.lt_of_not_le hsize)]

end Engine

namespace Invocation

variable {b : Basis} {w : Window}

/-- With an installed basis, a combination is refused for the first reason of its checks. -/
theorem verdict_combine_eq {v : View b.geometry} (hv : v.installed = some ⟨b, rfl⟩)
    (op : PointwiseOp) (left right target : Array UInt64) :
    (combine op left right target w).verdict v =
      resultUnless ((b.combineChecks w left right v.buffer).findSome? id) ⟨b, rfl⟩ := by
  have hbasis : basisOf v = .ok ⟨b, rfl⟩ := basisOf_eq_ok_iff.2 hv
  simp only [Basis.combineChecks, resultUnless_findSome?_cons, resultUnless_findSome?_nil, verdict,
    hbasis, ok_bind]
  by_cases hcount : w.count ≤ b.geometry.capacity
  · by_cases hstop : w.offset + w.count ≤ b.size
    · have h : w.Fits b := ⟨hcount, hstop⟩
      simp only [h.validate, ok_bind, resultUnless_of_holds hcount, resultUnless_of_holds hstop,
        Transfer.checkSource_eq hcount, Engine.checkReduced_chunks h, Engine.checkRoom_eq]
      rfl
    · have hrefused : w.validate b.geometry.capacity b.size = .error
          (.windowOutOfRange w.offset (min (w.offset + w.count) Window.maxWord) b.size) := by
        rw [Window.validate, dif_pos hcount, dif_neg hstop]
      rw [hrefused, resultUnless_of_holds hcount, resultUnless_of_not_holds hstop]
      rfl
  · have hrefused : w.validate b.geometry.capacity b.size =
        .error (.tooManyChannels w.count b.geometry.capacity) := by
      rw [Window.validate, dif_neg hcount]
    rw [hrefused, resultUnless_of_not_holds hcount]
    rfl

end Invocation

namespace Engine

variable {b : Basis} {w : Window}

/-- What a window accepts and the basis admits is the same. -/
theorem operand_iff_admits (h : w.Fits b) (data : Array UInt64) :
    h.Operand data ↔ b.Admits w data := by
  refine ⟨fun hdata => ⟨hdata.words_le, fun l k hl hk => ?_⟩, fun hdata => hdata.operand h⟩
  have hword := hdata.reduced l hl ⟨k, hk⟩
  rwa [Transfer.words_chunk, h.modulus_entry l hl] at hword

/-- A word of the result of a combination is the exact result in the ring of its channel. -/
theorem polynomial_of_rewrites (h : w.Fits b) {op : PointwiseOp}
    {left right target result : Array UInt64} (hleft : h.Operand left) (hright : h.Operand right)
    (hresult : Transfer.Rewrites b.geometry w.count
      (fun l hl => Tile.zipWith (op.apply (h.entry l hl).channel)
        (Transfer.chunk b.geometry left l) (Transfer.chunk b.geometry right l)) target result)
    {l : ℕ} (hl : l < w.count) (k : Fin b.geometry.ringDim) :
    Transfer.polynomial b.geometry result l k =
      op.eval (Transfer.polynomial b.geometry left l k) (Transfer.polynomial b.geometry right l k) %
        ((b.moduli.getD (w.offset + l) 0).toNat : ℤ) := by
  obtain ⟨hreduced, hresidues⟩ := Tile.zipWith_spec (hleft.reduced l hl) (hright.reduced l hl) op
  rw [← hresult.chunk_eq l hl] at hreduced hresidues
  rw [← h.modulus_entry l hl]
  refine Transfer.polynomial_eq_emod hreduced ?_
  rw [hresidues, Transfer.residues_chunk, Transfer.residues_chunk]
  cases op <;> simp [PointwiseOp.eval]

/-- A combination has the outcome that its checks find. -/
theorem outcome_combine {g : Geometry} (e : Engine g) (op : PointwiseOp)
    (left right target : Array UInt64) (w : Window) :
    (e.execute (.combine op left right target w)).outcome =
      ((Invocation.combine op left right target w).verdict
        (Session.view ⟨e, target⟩)).map fun _ => none := by
  cases hverdict : (Invocation.combine op left right target w).verdict
    (Session.view ⟨e, target⟩) with
  | error fault => exact (Invocation.action_of_refused hverdict).1
  | ok p =>
    obtain ⟨b, rfl⟩ := p
    obtain ⟨he, ⟨h, hleft, hright⟩, hroom⟩ := Invocation.verdict_combine_eq_ok_iff.1 hverdict
    exact (execute_combine h he hleft hright hroom op).1

/-- An engine without a basis refuses every combination. -/
theorem outcome_combine_of_none {g : Geometry} {e : Engine g} (he : e.installed = none)
    (op : PointwiseOp) (left right target : Array UInt64) (w : Window) :
    (e.execute (.combine op left right target w)).outcome = .error .notInitialized := by
  rw [outcome_combine]
  simp only [Invocation.verdict, Invocation.basisOf, Session.view, he, error_bind]
  rfl

/-- An engine that runs a basis refuses a combination for the first reason of its checks. -/
theorem outcome_combine_of_runs {e : Engine b.geometry} (he : e.Runs b) (op : PointwiseOp)
    (left right target : Array UInt64) (w : Window) :
    (e.execute (.combine op left right target w)).outcome =
      resultUnless ((b.combineChecks w left right target).findSome? id) none := by
  rw [outcome_combine, Invocation.verdict_combine_eq (runs_iff.1 he), map_resultUnless]
  rfl

/-- There is no reason exactly when the window accepts both inputs and there is room. -/
theorem findSome?_combineChecks_eq_none_iff (left right target : Array UInt64) :
    (b.combineChecks w left right target).findSome? id = none ↔
      (∃ h : w.Fits b, h.Operand left ∧ h.Operand right) ∧
        b.geometry.words w.count ≤ target.size := by
  -- the verdict on a view says both
  let v : View b.geometry := ⟨some ⟨b, rfl⟩, target⟩
  have hv : v.installed = some ⟨b, rfl⟩ := rfl
  have hverdict : (Invocation.combine .add left right target w).verdict v = .ok ⟨b, rfl⟩ ↔ _ :=
    Invocation.verdict_combine_eq_ok_iff
  rw [Invocation.verdict_combine_eq hv, resultUnless_eq_ok_iff] at hverdict
  exact hverdict.trans (and_iff_right hv)

/-- **Combinations.** A combination by a sum, a difference or a product

* succeeds exactly when a basis is installed, the tiles of the window exist and its moduli are in
  the basis, the three buffers have its words, and the words of either input are reduced modulo the
  moduli of their channels, whatever the other words are;
* then writes the exact results modulo the moduli of the channels, and keeps the words past them;
* and else is refused for the first reason: that no basis is installed, or the first that the list
  of its checks finds. -/
theorem combine_exact {g : Geometry} (e : Engine g) (op : PointwiseOp)
    (left right target : Array UInt64) (w : Window) :
    let reply := e.call (.method (.combine op left right target w))
    (reply.outcome = .ok none ↔ ∃ b, e.Runs b ∧ w.count ≤ g.capacity ∧
      w.offset + w.count ≤ b.size ∧ b.Admits w left ∧ b.Admits w right ∧
        g.words w.count ≤ target.size) ∧
    (∀ b, e.Runs b → reply.outcome = .ok none →
      (∀ l < w.count, ∀ k : Fin g.ringDim,
        Transfer.polynomial g reply.buffer l k =
          op.eval (Transfer.polynomial g left l k) (Transfer.polynomial g right l k) %
            ((b.moduli.getD (w.offset + l) 0).toNat : ℤ)) ∧
      reply.buffer.size = target.size ∧
        ∀ i, g.words w.count ≤ i → reply.buffer[i]? = target[i]?) ∧
    (e.installed = none → reply.outcome = .error .notInitialized) ∧
    ∀ b, e.Runs b → reply.outcome =
      resultUnless ((b.combineChecks w left right target).findSome? id) none := by
  intro reply
  have hreply : reply = e.execute (.combine op left right target w) := e.call_eq_execute _
  rw [hreply]
  cases he : e.installed with
  | none =>
    have hnone : ∀ b, ¬ e.Runs b := fun b hb => by
      rw [Runs, he] at hb
      cases hb
    rw [outcome_combine_of_none he]
    refine ⟨⟨fun h => (by cases h), ?_⟩, fun b hb => absurd hb (hnone b), fun _ => rfl,
      fun b hb => absurd hb (hnone b)⟩
    rintro ⟨b, hb, -⟩
    exact absurd hb (hnone b)
  | some installed =>
    obtain ⟨b, rfl⟩ := installed
    have hruns : e.Runs b := runs_iff.2 he
    have hunique : ∀ b', e.Runs b' → b = b' := fun b' hb' => Option.some.inj (hruns.symm.trans hb')
    have houtcome := outcome_combine_of_runs hruns op left right target w
    have hiff := findSome?_combineChecks_eq_none_iff (b := b) (w := w) left right target
    rw [houtcome, resultUnless_eq_ok_iff, hiff]
    refine ⟨⟨?_, ?_⟩, ?_, fun hnone => absurd hnone (Option.some_ne_none _), ?_⟩
    · rintro ⟨⟨h, hleft, hright⟩, hroom⟩
      exact ⟨b, hruns, h.count_le, h.stop_le, (operand_iff_admits h left).1 hleft,
        (operand_iff_admits h right).1 hright, hroom⟩
    · rintro ⟨b', hb', hcount, hstop, hleft, hright, hroom⟩
      obtain rfl := hunique b' hb'
      have h : w.Fits b := ⟨hcount, hstop⟩
      exact ⟨⟨h, hleft.operand h, hright.operand h⟩, hroom⟩
    · rintro b' hb' ⟨⟨h, hleft, hright⟩, hroom⟩
      obtain rfl := hunique b' hb'
      obtain ⟨-, -, hrewrites⟩ := execute_combine h he hleft hright hroom op
      exact ⟨fun l hl k => polynomial_of_rewrites h hleft hright hrewrites hl k,
        hrewrites.size_eq, hrewrites.tail_eq⟩
    · intro b' hb'
      obtain rfl := hunique b' hb'
      rfl

/-- Minus one times minus one in the second of two channels, in buffers of which the first is longer
and goes on with a word that is not reduced. In the first channel the same buffers are refused for
their first word, and the last word as an offset is refused without wrapping around. -/
theorem combine_exact_second_channel :
    ∃ (g : Geometry) (e : Engine g) (b : Basis),
      let reply : ℕ → Reply g := fun offset => e.call (.method (.combine .mul
        ((Array.replicate 16 192).push 1000) (Array.replicate 16 192) (Array.replicate 17 7)
        { count := 1, offset }))
      e.Runs b ∧ b.moduli = #[97, 193] ∧ (reply 1).outcome = .ok none ∧
        (∀ k : Fin g.ringDim, Transfer.polynomial g (reply 1).buffer 0 k = 1) ∧
        (reply 1).buffer[16]? = some 7 ∧
        (reply 0).outcome = .error (.operandOutOfRange .residue 192 97) ∧
        (reply (2 ^ 64 - 1)).outcome =
          .error (.windowOutOfRange (2 ^ 64 - 1) (2 ^ 64 - 1) 2) := by
  obtain ⟨b, hb, hmoduli⟩ := Basis.exists_derived_smallGeometry
  obtain ⟨hgeometry, -⟩ := hb.spec
  have hsize : b.size = 2 := by
    rw [← b.size_moduli, hmoduli]
    rfl
  have hcheck : ∀ w data, b.checkWord w data = fun i =>
      let q := (#[97, 193] : Array UInt64).getD (w.offset + i / Basis.smallGeometry.ringDim) 0
      reasonUnless (data.getD i 0 < q) (.operandOutOfRange .residue (data.getD i 0) q) := by
    intro w data
    unfold Basis.checkWord
    rw [hgeometry, hmoduli]
  obtain ⟨-, hruns⟩ := execute_install_derived hb (Engine.blank _)
  let e := ((Engine.blank Basis.smallGeometry).execute (.install b)).engine
  have hexact := fun offset => combine_exact e .mul ((Array.replicate 16 192).push 1000)
    (Array.replicate 16 192) (Array.replicate 17 7) { count := 1, offset }
  have hleft : b.Admits { count := 1, offset := 1 } ((Array.replicate 16 192).push 1000) := by
    rw [hb.admits_iff, hmoduli]
    decide
  have hright : b.Admits { count := 1, offset := 1 } (Array.replicate 16 192) := by
    rw [hb.admits_iff, hmoduli]
    decide
  have hstop : 1 + 1 ≤ b.size := hsize.ge
  obtain ⟨hok, hwords, -, -⟩ := hexact 1
  have houtcome := hok.2 ⟨b, hruns, by decide, hstop, hleft, hright, by decide⟩
  obtain ⟨hproducts, -, hkept⟩ := hwords b hruns houtcome
  refine ⟨_, e, b, hruns, hmoduli, houtcome, fun k => ?_, (hkept 16 (by decide)).trans rfl,
    ((hexact 0).2.2.2 b hruns).trans ?_, ((hexact (2 ^ 64 - 1)).2.2.2 b hruns).trans ?_⟩
  · rw [hproducts 0 Nat.one_pos k, hmoduli]
    revert k
    decide
  · simp only [Basis.combineChecks, hcheck, hgeometry, hsize]
    decide
  · simp only [Basis.combineChecks, hcheck, hgeometry, hsize]
    decide

end Engine

end RnsEngine
