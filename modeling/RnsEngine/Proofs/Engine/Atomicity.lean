import RnsEngine.Proofs.Engine.Admission
import RnsEngine.Proofs.Engine.RoundTrip

/-!
# Refused calls

A refused call leaves what its caller sees: `Engine.call_atomic`. The reason is that all
that can be refused comes first. No check writes to the buffer or installs a basis, and each check
that the work repeats has been passed before, so the work on what has passed cannot be refused.
-/

namespace RnsEngine

variable {g : Geometry}

namespace Invocation

/-- The checks show the caller what was there before. -/
theorem view_checks (i : Invocation) (s : Session g) : (i.checks s).2.view = s.view :=
  (decides_checks s.view i s rfl trivial).2.1

/-- After checks that have passed, the work succeeds. -/
theorem work_succeeds {i : Invocation} {s s' : Session g} {p : i.Passed g}
    (h : i.checks s = (.ok p, s')) : ∃ report s'', i.work p s' = (.ok report, s'') := by
  obtain ⟨houtcome, -, -⟩ := decides_checks s.view i s rfl trivial
  rw [h] at houtcome
  obtain ⟨report, _, hdetermined⟩ := action_of_admitted houtcome.symm
  have hrun : i.action s = i.work p s' := by rw [action_eq_bind, Engine.bind_ok h]
  exact ⟨report, _, Prod.ext (hrun ▸ (hdetermined s rfl).1) rfl⟩

end Invocation

/-! ### Calls -/

/-- An operation is called through the dispatcher, or as a method of the engine. -/
inductive Call where
  | dispatched (i : Invocation)
  | method (i : Invocation)

/-- The operation that is called, with its operands. -/
def Call.invocation : Call → Invocation
  | dispatched i => i
  | method i => i

namespace Engine

/-- Runs a method on the buffer of its caller; the report is drawn from its result. -/
def callMethod {α : Type} (e : Engine g) (x : Action g α) (buffer : Array UInt64)
    (report : α → Option ℕ) : Reply g :=
  let (outcome, session) := x { engine := e, buffer }
  { outcome := outcome.map report, engine := session.engine, buffer := session.buffer }

/-- Performs a call. -/
def call (e : Engine g) : Call → Reply g
  | .dispatched i => e.execute i
  | .method (.install b) => e.callMethod (install b) #[] fun _ => none
  | .method (.combine op left right target window) =>
    e.callMethod (combine op left right window) target fun _ => none
  | .method (.transform direction data window) =>
    e.callMethod (transform direction window) data fun _ => none
  | .method (.convert shape input weights moduli target) =>
    e.callMethod (convert shape input weights moduli) target some

/-- A method replies like the dispatcher, when it is what the dispatcher runs. -/
theorem callMethod_eq_execute (e : Engine g) (i : Invocation) {α : Type} (x : Action g α)
    {report : α → Option ℕ} (h : i.action = x >>= fun a => pure (report a)) :
    e.callMethod x i.target report = e.execute i := by
  simp only [callMethod, execute, h]
  rcases hrun : x ⟨e, i.target⟩ with ⟨_ | a, s⟩
  · rw [bind_error hrun]
    rfl
  · rw [bind_ok hrun]
    rfl

/-- The dispatcher does what the method does. -/
theorem call_eq_execute (e : Engine g) (c : Call) : e.call c = e.execute c.invocation := by
  cases c with
  | dispatched i => rfl
  | method i =>
    cases i with
    | install b => exact e.callMethod_eq_execute (.install b) (install b) rfl
    | combine op left right target w =>
      exact e.callMethod_eq_execute (.combine op left right target w) (combine op left right w) rfl
    | transform d data w =>
      exact e.callMethod_eq_execute (.transform d data w) (transform d w) rfl
    | convert shape input weights moduli target =>
      exact e.callMethod_eq_execute (.convert shape input weights moduli target)
        (convert shape input weights moduli) rfl

/-! ### Atomicity -/

/-- **A refused call changes nothing.** Whatever the state of the engine and the operands, a call
that is refused leaves the buffer of its caller word for word and the installed basis as they were.
For an operation is a sequence of checks, which keep both, followed by work that is never refused:
no fault can arise once a word has been written. -/
theorem call_atomic (e : Engine g) (c : Call) :
    (∀ fault, (e.call c).outcome = .error fault →
      (e.call c).buffer = c.invocation.target ∧ (e.call c).engine.installed = e.installed) ∧
    ∀ i : Invocation, (i.action : Action g (Option ℕ)) = i.checks >>= i.work ∧
      ∀ s : Session g, (i.checks s).2.view = s.view ∧
        ∀ p s', i.checks s = (.ok p, s') → ∃ report s'', i.work p s' = (.ok report, s'') := by
  refine ⟨fun fault hfault => ?_, fun i => ⟨i.action_eq_bind, fun s => ⟨i.view_checks s,
    fun p s' h => Invocation.work_succeeds h⟩⟩⟩
  rw [call_eq_execute] at hfault ⊢
  let s : Session g := ⟨e, c.invocation.target⟩
  have houtcome : (c.invocation.action s).1 = .error fault := hfault
  cases hverdict : c.invocation.verdict s.view with
  | error found =>
    have hview := (Invocation.action_of_refused hverdict).2
    exact ⟨congrArg View.buffer hview, congrArg View.installed hview⟩
  | ok p =>
    obtain ⟨report, _, hdetermined⟩ := Invocation.action_of_admitted hverdict
    rw [(hdetermined s rfl).1] at houtcome
    cases houtcome

/-- A transform of a buffer with a word that is not reduced is refused. -/
theorem transform_unreduced {e : Engine g} {b : Basis} (he : e.Runs b) {w : Window}
    {data : Array UInt64} {l k : ℕ} (hl : l < w.count) (hk : k < g.ringDim)
    (hx : b.moduli.getD (w.offset + l) 0 ≤ data.getD (l * g.ringDim + k) 0) (d : Direction) :
    ∃ fault, (e.execute (.transform d data w)).outcome = .error fault := by
  let i : Invocation := .transform d data w
  cases hverdict : i.verdict (Session.view ⟨e, data⟩) with
  | error fault => exact ⟨fault, (Invocation.action_of_refused hverdict).1⟩
  | ok p =>
    obtain ⟨b', rfl⟩ := p
    obtain ⟨hinstalled, h, hdata⟩ := Invocation.verdict_transform_eq_ok_iff.1 hverdict
    obtain rfl : b = b' := Option.some.inj (he.symm.trans (runs_iff.2 hinstalled))
    have hword := hdata.reduced l hl ⟨k, hk⟩
    rw [Transfer.words_chunk, h.modulus_entry l hl] at hword
    exact absurd hx (UInt64.not_le.2 hword)

/-- A transform of a buffer of the greatest residues modulo the first of two channels passes the
checks and is done. One of words that are too large for that channel, if not for the second, is
found out when the buffer is staged already, and is refused. -/
theorem call_atomic_unreduced :
    ∃ (g : Geometry) (e : Engine g) (b : Basis) (fault : Fault),
      let i : UInt64 → Invocation := fun x =>
        .transform .forward (Array.replicate 17 x) (.leading 1)
      e.Runs b ∧ b.moduli = #[97, 193] ∧
        (∃ p s' report s'', (i 96).checks ⟨e, (i 96).target⟩ = (.ok p, s') ∧
          (i 96).work p s' = (.ok report, s'')) ∧
        (e.call (.method (i 192))).outcome = .error fault ∧
        (e.call (.method (i 192))).buffer = Array.replicate 17 192 ∧
        (e.call (.method (i 192))).engine.installed = e.installed := by
  obtain ⟨b, hb, hmoduli⟩ := Basis.exists_derived_smallGeometry
  let e := ((blank b.geometry).execute (.install b)).engine
  have he : e.installed = some ⟨b, rfl⟩ :=
    congrArg (·.engine.installed) (execute_install (blank b.geometry))
  have hlarge : b.moduli.getD (0 + 0) 0 ≤
      (Array.replicate 17 192).getD (0 * b.geometry.ringDim + 0) 0 := by
    rw [hmoduli, Nat.zero_mul]
    decide
  obtain ⟨fault, hfault⟩ := transform_unreduced (w := .leading 1) (runs_iff.2 he) Nat.one_pos
    b.geometry.ringDim_pos hlarge .forward
  obtain ⟨hgeometry, -⟩ := hb.spec
  have hfits : (Window.leading 1).Fits b := by
    refine ⟨?_, ?_⟩
    · rw [hgeometry]
      decide
    · rw [← b.size_moduli, hmoduli]
      decide
  have hadmits : b.Admits (.leading 1) (Array.replicate 17 96) := by
    rw [hb.admits_iff, hmoduli]
    decide
  have hverdict : (Invocation.transform .forward (Array.replicate 17 96) (.leading 1)).verdict
      (Session.view ⟨e, Array.replicate 17 96⟩) = .ok ⟨b, rfl⟩ :=
    Invocation.verdict_transform_eq_ok_iff.2 ⟨he, hfits, hadmits.operand hfits⟩
  obtain ⟨s', hchecks, -, -⟩ := Invocation.action_eq_work hverdict
  let c : Call := .method (.transform .forward (Array.replicate 17 192) (.leading 1))
  have hcall : (e.call c).outcome = .error fault := (congrArg _ (e.call_eq_execute c)).trans hfault
  obtain ⟨hrefused, hwork⟩ := call_atomic e c
  obtain ⟨hbuffer, hinstalled⟩ := hrefused fault hcall
  obtain ⟨report, s'', hreport⟩ := ((hwork _).2 _).2 _ s' hchecks
  exact ⟨_, e, b, fault, runs_iff.2 he, hmoduli, ⟨_, s', report, s'', hchecks, hreport⟩, hcall,
    hbuffer, hinstalled⟩

end Engine

end RnsEngine
