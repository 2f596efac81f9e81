import RnsEngine.Proofs.Engine.Run
import RnsEngine.Proofs.Refusal

/-!
# Checks before work

An invocation first runs its checks (`Invocation.checks`), which at most stage operands in the
banks, and then does its work (`Invocation.work`): `Invocation.action_eq_bind`. What the checks find
depends only on what the caller sees, that is on the installed basis and on buffers:
`Invocation.verdict` says it without any state, and `Invocation.decides_checks` that the checks find
just this and change nothing that the caller sees.

An operation that is refused therefore leaves what its caller sees (`Invocation.action_of_refused`).
One that is admitted succeeds, and what it leaves depends on nothing else
(`Invocation.action_of_admitted`).
-/

namespace RnsEngine

variable {g : Geometry}

/-! ### Checks and work -/

/-- The checks of a product; they find the grid at rest. -/
def Grid.accept (s : Shape) (input weights moduli output : Array UInt64) :
    Except Fault (Grid s) := do
  let grid ← install s weights moduli
  checkSize .conversionInput (s.rows * s.inputs) input
  checkSize .conversionOutput (s.rows * s.outputs) output
  checkOperands .conversionInput (s.rows * s.inputs) input
  return grid

/-- A product is checked and then run. -/
theorem Grid.multiply_eq_bind (s : Shape) (input weights moduli output : Array UInt64) :
    multiply s input weights moduli output = do
      let grid ← accept s input weights moduli output
      return ⟨s.cycles, (after input s.cycles (grid, output)).2⟩ := by
  simp only [multiply, run, accept, bind_assoc, pure_bind]

namespace Invocation

/-- What the checks hand on to the work: the grid of a conversion, else a basis that has the
geometry of the engine. -/
abbrev Passed (g : Geometry) : Invocation → Type
  | convert shape .. => Grid shape
  | _ => { b : Basis // b.geometry = g }

/-- The checks of an operation, which stage its operands as they go. -/
def checks : (i : Invocation) → Action g (i.Passed g)
  | install b => if h : b.geometry = g then return ⟨b, h⟩ else throw .geometryMismatch
  | combine _ left right _ window => do
    let b ← Engine.basis
    let span ← Engine.settle (window.validate g.capacity b.val.size)
    Engine.loadLeft left window.count
    Engine.loadRight right window.count
    Engine.settle (Engine.checkReduced b.val span (← get).engine.left)
    Engine.settle (Engine.checkReduced b.val span (← get).engine.right)
    Engine.settle (Engine.checkRoom (g := g) window.count (← get).buffer.size)
    return b
  | transform _ _ window => do
    let b ← Engine.basis
    let span ← Engine.settle (window.validate g.capacity b.val.size)
    Engine.loadLeft (← get).buffer window.count
    Engine.settle (Engine.checkReduced b.val span (← get).engine.left)
    return b
  | convert shape input weights moduli _ => do
    Engine.settle (Grid.accept shape input weights moduli (← get).buffer)

/-- The work of an operation: the kernel computes, and the result is copied over the buffer. -/
def work : (i : Invocation) → i.Passed g → Action g (Option ℕ)
  | install _, b => do
    modify fun s => { s with engine := { s.engine with installed := some b } }
    return none
  | combine op _ _ _ window, b => do
    let e := (← get).engine
    let result ← Engine.settle (Pointwise.assign op e.left e.right b.val.channels window)
    modify fun s => { s with engine := { s.engine with left := result } }
    Engine.storeLeft window.count
    return none
  | transform direction _ window, b => do
    let e := (← get).engine
    let result ← Engine.settle
      (Workspace.transform b.val direction window { bank := e.left, scratch := e.scratch })
    modify fun s =>
      { s with engine := { s.engine with left := result.bank, scratch := result.scratch } }
    Engine.storeLeft window.count
    return none
  | convert shape input _ _ _, grid => do
    modify fun s => { s with buffer := (Grid.after input shape.cycles (grid, s.buffer)).2 }
    return some shape.cycles

/-- An operation is its checks, and then its work. -/
theorem action_eq_bind (i : Invocation) :
    (i.action : Action g (Option ℕ)) = i.checks >>= i.work := by
  cases i with
  | install b =>
    simp only [action, checks, Engine.install]
    split
    · rfl
    · rfl
  | combine op left right target window =>
    simp only [action, checks, work, Engine.combine, bind_assoc, pure_bind]
  | transform direction data window =>
    simp only [action, checks, work, Engine.transform, bind_assoc, pure_bind]
  | convert shape input weights moduli target =>
    -- the run reads the buffer that the checks have seen
    funext s
    cases h : Grid.accept shape input weights moduli s.buffer with
    | error fault =>
      have hchecks : (convert shape input weights moduli target).checks s = (.error fault, s) :=
        Engine.settle_error h s
      have hconvert : Engine.convert shape input weights moduli s = (.error fault, s) := by
        rw [Engine.convert, Engine.bind_ok (Engine.get_ok s), Grid.multiply_eq_bind, h]
        rfl
      rw [Engine.bind_error hchecks]
      exact Engine.bind_error hconvert
    | ok grid =>
      have hchecks : (convert shape input weights moduli target).checks s = (.ok grid, s) :=
        Engine.settle_ok h s
      have hconvert : Engine.convert shape input weights moduli s = (.ok shape.cycles,
          { s with buffer := (Grid.after input shape.cycles (grid, s.buffer)).2 }) := by
        rw [Engine.convert, Engine.bind_ok (Engine.get_ok s), Grid.multiply_eq_bind, h]
        rfl
      rw [Engine.bind_ok hchecks]
      exact Engine.bind_ok hconvert

end Invocation

/-! ### What the caller sees -/

/-- The installed basis, and the buffer that an operation writes to. -/
structure View (g : Geometry) where
  installed : Option { b : Basis // b.geometry = g }
  buffer : Array UInt64

/-- What the caller sees of a session. -/
def Session.view (s : Session g) : View g := ⟨s.engine.installed, s.buffer⟩

namespace Invocation

/-- The basis that an operation finds. -/
def basisOf (v : View g) : Except Fault { b : Basis // b.geometry = g } :=
  match v.installed with
  | some b => .ok b
  | none => .error .notInitialized

/-- What the checks of an operation find, in their order, from what its caller sees. -/
def verdict (v : View g) : (i : Invocation) → Except Fault (i.Passed g)
  | install b => if h : b.geometry = g then .ok ⟨b, h⟩ else .error .geometryMismatch
  | combine _ left right _ window => do
    let b ← basisOf v
    let span ← window.validate g.capacity b.val.size
    Transfer.checkSource g window.count left.size
    Transfer.checkSource g window.count right.size
    Engine.checkReduced b.val span (Transfer.chunks g left)
    Engine.checkReduced b.val span (Transfer.chunks g right)
    Engine.checkRoom (g := g) window.count v.buffer.size
    return b
  | transform _ _ window => do
    let b ← basisOf v
    let span ← window.validate g.capacity b.val.size
    Transfer.checkSource g window.count v.buffer.size
    Engine.checkReduced b.val span (Transfer.chunks g v.buffer)
    return b
  | convert shape input weights moduli _ => Grid.accept shape input weights moduli v.buffer

end Invocation

/-! ### Actions that decide -/

/-- From a session that shows the view and has the property `I`, an action has the outcome `r`,
which does not depend on the session otherwise, and shows the same view. A result leaves the
property `J`. -/
def Decides {α : Type} (v : View g) (I : Session g → Prop) (x : Action g α) (r : Except Fault α)
    (J : α → Session g → Prop) : Prop :=
  ∀ s, s.view = v → I s → (x s).1 = r ∧ (x s).2.view = v ∧ ∀ a, r = .ok a → J a (x s).2

namespace Decides

variable {v : View g} {α β : Type} {I : Session g → Prop}

/-- Steps that decide make up an action that does. -/
theorem bind {x : Action g α} {f : α → Action g β} {r : Except Fault α} {k : α → Except Fault β}
    {J : α → Session g → Prop} {K : β → Session g → Prop} (hx : Decides v I x r J)
    (hf : ∀ a, r = .ok a → Decides v (J a) (f a) (k a) K) :
    Decides v I (x >>= f) (r >>= k) K := by
  intro s hs hI
  obtain ⟨hr, hview, hJ⟩ := hx s hs hI
  have hrun : x s = (r, (x s).2) := Prod.ext hr rfl
  cases r with
  | error fault =>
    rw [Engine.bind_error hrun]
    exact ⟨rfl, hview, fun a ha => nomatch ha⟩
  | ok a =>
    rw [Engine.bind_ok hrun]
    exact hf a rfl _ hview (hJ a rfl)

/-- A check that does not read the session. -/
theorem settle (r : Except Fault α) : Decides v I (Engine.settle r) r fun _ => I :=
  fun _ hs hI => ⟨rfl, hs, fun _ _ => hI⟩

/-- An action that starts with reading the session. -/
theorem read {f : Session g → Action g α} {r : Except Fault α} {J : α → Session g → Prop}
    (h : ∀ s, s.view = v → I s → Decides v I (f s) r J) : Decides v I (get >>= f) r J := by
  intro s hs hI
  rw [Engine.bind_ok (Engine.get_ok s)]
  exact h s hs hI s hs hI

/-- A result without a further step; nothing is asked of what comes after. -/
theorem result (a : α) : Decides v I (pure a : Action g α) (.ok a) fun _ _ => True :=
  fun _ hs _ => ⟨rfl, hs, fun _ _ => trivial⟩

/-- Looking for the installed basis. -/
theorem basis : Decides v I Engine.basis (Invocation.basisOf v) fun _ => I := by
  intro s hs hI
  have hrun : Engine.basis s = (Invocation.basisOf s.view, s) := by
    rw [Engine.basis, Engine.bind_ok (Engine.get_ok s), Invocation.basisOf, Session.view]
    cases s.engine.installed <;> rfl
  rw [hrun]
  exact ⟨congrArg Invocation.basisOf hs, hs, fun _ _ => hI⟩

/-- Staging on the left. -/
theorem loadLeft (data : Array UInt64) (count : ℕ) :
    Decides v I (Engine.loadLeft data count) (Transfer.checkSource g count data.size)
      fun _ s => Transfer.Holds s.engine.left data count := by
  intro s hs _
  rcases Transfer.load_cases data s.engine.left count with
    ⟨bank, hload, hcheck, hholds⟩ | ⟨fault, hload, hcheck⟩
  · rw [Engine.loadLeft_ok hload, hcheck]
    exact ⟨rfl, hs, fun _ _ => hholds⟩
  · rw [Engine.loadLeft_error hload, hcheck]
    exact ⟨rfl, hs, fun a ha => nomatch ha⟩

/-- Staging on the right, with the left bank kept. -/
theorem loadRight (P : Bank g → Prop) (data : Array UInt64) (count : ℕ) :
    Decides v (fun s => P s.engine.left) (Engine.loadRight data count)
      (Transfer.checkSource g count data.size)
      fun _ s => P s.engine.left ∧ Transfer.Holds s.engine.right data count := by
  intro s hs hleft
  rcases Transfer.load_cases data s.engine.right count with
    ⟨bank, hload, hcheck, hholds⟩ | ⟨fault, hload, hcheck⟩
  · rw [Engine.loadRight_ok hload, hcheck]
    exact ⟨rfl, hs, fun _ _ => ⟨hleft, hholds⟩⟩
  · rw [Engine.loadRight_error hload, hcheck]
    exact ⟨rfl, hs, fun a ha => nomatch ha⟩

end Decides

namespace Invocation

/-- The checks of an operation find what its caller can see, and show the caller the same. -/
theorem decides_checks (v : View g) (i : Invocation) :
    Decides v (fun _ => True) i.checks (i.verdict v) fun _ _ => True := by
  cases i with
  | install b =>
    simp only [checks, verdict]
    split
    · exact .result _
    · exact .settle (.error _)
  | combine op left right target window =>
    refine .bind .basis fun b _ => .bind (.settle _) fun span hspan => ?_
    obtain ⟨-, hcount⟩ := Window.validate_eq_ok_iff.1 hspan
    refine .bind (.loadLeft left _) fun _ _ => ?_
    refine .bind (.loadRight (Transfer.Holds · left window.count) right _) fun _ _ => ?_
    refine .read fun s _ hs => ?_
    rw [Engine.checkReduced_of_holds (hcount ▸ hs.1)]
    refine .bind (.settle _) fun _ _ => .read fun s _ hs => ?_
    rw [Engine.checkReduced_of_holds (hcount ▸ hs.2)]
    refine .bind (.settle _) fun _ _ => .read fun s hview _ => ?_
    subst hview
    exact .bind (.settle _) fun _ _ => .result _
  | transform direction data window =>
    refine .bind .basis fun b _ => .bind (.settle _) fun span hspan => .read fun s hview _ => ?_
    obtain ⟨-, hcount⟩ := Window.validate_eq_ok_iff.1 hspan
    subst hview
    refine .bind (.loadLeft s.buffer _) fun _ _ => .read fun t _ ht => ?_
    rw [Engine.checkReduced_of_holds (hcount ▸ ht)]
    exact .bind (.settle _) fun _ _ => .result _
  | convert shape input weights moduli target =>
    refine .read fun s hs _ => ?_
    subst hs
    exact .settle _

/-! ### What is admitted -/

/-- The basis that is found is the installed one. -/
theorem basisOf_eq_ok_iff {v : View g} {b : { b : Basis // b.geometry = g }} :
    basisOf v = .ok b ↔ v.installed = some b := by
  rw [basisOf]
  split <;> simp [*]

variable {b : Basis} {w : Window}

/-- The basis that is admitted for installation is the one that was given. -/
theorem val_of_verdict_install {v : View g} {p : { b : Basis // b.geometry = g }}
    (h : (install b).verdict v = .ok p) : p.val = b := by
  simp only [verdict] at h
  split at h
  · rw [← Except.ok.inj h]
  · cases h

/-- A transform is admitted when a basis is installed that the window fits, and the buffer is an
operand. -/
theorem verdict_transform_eq_ok_iff {v : View b.geometry} {d : Direction} {data : Array UInt64} :
    (transform d data w).verdict v = .ok ⟨b, rfl⟩ ↔
      v.installed = some ⟨b, rfl⟩ ∧ ∃ h : w.Fits b, h.Operand v.buffer := by
  simp only [verdict, bind_eq_ok_iff, basisOf_eq_ok_iff, Engine.operand_iff]
  constructor
  · rintro ⟨_, hinstalled, span, hspan, ⟨⟩, hsource, ⟨⟩, hreduced, hresult⟩
    obtain rfl := Except.ok.inj hresult
    obtain ⟨h, rfl⟩ := Window.Fits.validate_eq_ok_iff.1 hspan
    exact ⟨hinstalled, h, hsource, hreduced⟩
  · rintro ⟨hinstalled, h, hsource, hreduced⟩
    exact ⟨_, hinstalled, _, h.validate, (), hsource, (), hreduced, rfl⟩

/-- A combination is admitted when a basis is installed that the window fits, both inputs are
operands, and the buffer has room. -/
theorem verdict_combine_eq_ok_iff {v : View b.geometry} {op : PointwiseOp}
    {left right target : Array UInt64} :
    (combine op left right target w).verdict v = .ok ⟨b, rfl⟩ ↔
      v.installed = some ⟨b, rfl⟩ ∧ (∃ h : w.Fits b, h.Operand left ∧ h.Operand right) ∧
        b.geometry.words w.count ≤ v.buffer.size := by
  simp only [verdict, bind_eq_ok_iff, basisOf_eq_ok_iff, Engine.operand_iff]
  constructor
  · rintro ⟨_, hinstalled, span, hspan, ⟨⟩, hleft, ⟨⟩, hright, ⟨⟩, hleftReduced, ⟨⟩,
      hrightReduced, ⟨⟩, hroom, hresult⟩
    obtain rfl := Except.ok.inj hresult
    obtain ⟨h, rfl⟩ := Window.Fits.validate_eq_ok_iff.1 hspan
    exact ⟨hinstalled, ⟨h, ⟨hleft, hleftReduced⟩, hright, hrightReduced⟩,
      Engine.checkRoom_eq_ok_iff.1 hroom⟩
  · rintro ⟨hinstalled, ⟨h, ⟨hleft, hleftReduced⟩, hright, hrightReduced⟩, hroom⟩
    exact ⟨_, hinstalled, _, h.validate, (), hleft, (), hright, (), hleftReduced, (),
      hrightReduced, (), Engine.checkRoom_eq_ok_iff.2 hroom, rfl⟩

/-! ### The outcome -/

/-- A refused operation has the fault that the checks find, and shows its caller the same. -/
theorem action_of_refused {i : Invocation} {s : Session g} {fault : Fault}
    (h : i.verdict s.view = .error fault) :
    (i.action s).1 = .error fault ∧ (i.action s).2.view = s.view := by
  obtain ⟨houtcome, hview, -⟩ := decides_checks s.view i s rfl trivial
  have hchecks : i.checks s = (.error fault, (i.checks s).2) := Prod.ext (houtcome.trans h) rfl
  rw [action_eq_bind, Engine.bind_error hchecks]
  exact ⟨rfl, hview⟩

/-- An admitted operation goes on to its work, from a session that shows its caller the same. -/
theorem action_eq_work {i : Invocation} {s : Session g} {p : i.Passed g}
    (h : i.verdict s.view = .ok p) :
    ∃ s', i.checks s = (.ok p, s') ∧ s'.view = s.view ∧ i.action s = i.work p s' := by
  obtain ⟨houtcome, hview, -⟩ := decides_checks s.view i s rfl trivial
  have hchecks : i.checks s = (.ok p, (i.checks s).2) := Prod.ext (houtcome.trans h) rfl
  exact ⟨_, hchecks, hview, by rw [action_eq_bind, Engine.bind_ok hchecks]⟩

/-- The basis that is installed after an admitted operation. -/
def installedAfter (v : View g) : (i : Invocation) → i.Passed g →
    Option { b : Basis // b.geometry = g }
  | install _, b => some b
  | combine .., _ => v.installed
  | transform .., _ => v.installed
  | convert .., _ => v.installed

/-- Runs that keep the basis and rewrite one buffer in one way leave one buffer. -/
theorem exists_buffer_of_rewrites {x : Action g (Option ℕ)} {v : View g} (count : ℕ)
    (tile : (l : ℕ) → l < count → Tile g.side)
    (h : ∀ s : Session g, s.view = v → ∃ s', x s = (.ok none, s') ∧
      s'.engine.installed = v.installed ∧ Transfer.Rewrites g count tile v.buffer s'.buffer) :
    ∃ report buffer, ∀ s : Session g, s.view = v →
      (x s).1 = .ok report ∧ (x s).2.view = ⟨v.installed, buffer⟩ := by
  obtain ⟨s', -, -, hrewrites⟩ :=
    h ⟨{ Engine.blank g with installed := v.installed }, v.buffer⟩ rfl
  refine ⟨none, s'.buffer, fun s hs => ?_⟩
  obtain ⟨t, hrun, hkept, hwritten⟩ := h s hs
  rw [hrun, Session.view, hkept, hwritten.unique hrewrites]
  exact ⟨rfl, rfl⟩

/-- An admitted operation succeeds, and its report and what it shows its caller afterwards are
determined by what it showed before. -/
theorem action_of_admitted {i : Invocation} {v : View g} {p : i.Passed g}
    (h : i.verdict v = .ok p) :
    ∃ report buffer, ∀ s : Session g, s.view = v →
      (i.action s).1 = .ok report ∧ (i.action s).2.view = ⟨i.installedAfter v p, buffer⟩ := by
  cases i with
  | install b =>
    refine ⟨none, v.buffer, fun s hs => ?_⟩
    subst hs
    obtain ⟨s', -, hview, hrun⟩ := action_eq_work h
    rw [hrun, ← hview]
    exact ⟨rfl, rfl⟩
  | combine op left right target w =>
    obtain ⟨b, rfl⟩ := p
    obtain ⟨hinstalled, ⟨hw, hleft, hright⟩, hroom⟩ := verdict_combine_eq_ok_iff.1 h
    refine exists_buffer_of_rewrites w.count (fun l hl => Tile.zipWith
      (op.apply (hw.entry l hl).channel) (Transfer.chunk b.geometry left l)
      (Transfer.chunk b.geometry right l)) fun s hs => ?_
    subst hs
    obtain ⟨s', hrun, hkept, hrewrites⟩ :=
      Engine.combine_ok hw hinstalled hleft hright hroom op
    exact ⟨s', Engine.bind_ok hrun, hkept, hrewrites⟩
  | transform d data w =>
    obtain ⟨b, rfl⟩ := p
    obtain ⟨hinstalled, hw, hdata⟩ := verdict_transform_eq_ok_iff.1 h
    refine exists_buffer_of_rewrites w.count
      (fun l hl => (hw.entry l hl).image d (Transfer.chunk b.geometry v.buffer l)) fun s hs => ?_
    subst hs
    obtain ⟨s', hrun, hkept, hrewrites⟩ := Engine.transform_ok hw hinstalled hdata d
    exact ⟨s', Engine.bind_ok hrun, hkept, hrewrites⟩
  | convert shape input weights moduli target =>
    refine ⟨some shape.cycles, (Grid.after input shape.cycles (p, v.buffer)).2, fun s hs => ?_⟩
    subst hs
    obtain ⟨s', -, hview, hrun⟩ := action_eq_work h
    rw [hrun, ← hview]
    exact ⟨rfl, rfl⟩

/-- What an operation reports and shows its caller is determined by what it shows before. -/
theorem action_congr (i : Invocation) {s t : Session g} (h : s.view = t.view) :
    (i.action s).1 = (i.action t).1 ∧ (i.action s).2.view = (i.action t).2.view := by
  cases hverdict : i.verdict t.view with
  | error fault =>
    obtain ⟨hs, hsview⟩ := action_of_refused (h ▸ hverdict)
    obtain ⟨ht, htview⟩ := action_of_refused hverdict
    exact ⟨hs.trans ht.symm, hsview.trans (h.trans htview.symm)⟩
  | ok p =>
    obtain ⟨report, buffer, hdetermined⟩ := action_of_admitted hverdict
    obtain ⟨hs, hsview⟩ := hdetermined s h
    obtain ⟨ht, htview⟩ := hdetermined t rfl
    exact ⟨hs.trans ht.symm, hsview.trans htview.symm⟩

end Invocation

end RnsEngine
