import RnsEngine.Proofs.Engine.Atomicity

/-!
# Engines without memory

An engine is used again and again, and its banks and the buffers of its datapath keep what earlier
calls have left there, those that were refused included. None of it comes back: a call replies
like on any engine with the same basis (`Engine.call_congr`), and which basis that is can be read
off the replies (`Engine.installed_afterCalls`). `Engine.history_independent` puts these together.
-/

namespace RnsEngine

namespace Engine

variable {g : Geometry}

/-! ### Histories -/

/-- The basis that a call installs: the one of an installation that succeeds. -/
def installedBy (e : Engine g) (c : Call) : Option Basis :=
  match c.invocation, (e.call c).outcome with
  | .install b, .ok _ => some b
  | _, _ => none

/-- The engine after a sequence of calls. -/
def afterCalls (e : Engine g) (history : List Call) : Engine g :=
  history.foldl (fun e c => (e.call c).engine) e

/-- The basis of the last installation that succeeds in a sequence of calls. -/
def lastInstalled (e : Engine g) : List Call → Option Basis
  | [] => none
  | c :: rest => ((e.call c).engine.lastInstalled rest).or (e.installedBy c)

/-- An engine that has received nothing but a basis, or nothing at all. -/
def fresh (g : Geometry) : Option Basis → Engine g
  | none => blank g
  | some b => ((blank g).execute (.install b)).engine

/-! ### Installed bases -/

/-- A fresh engine has the basis that it has received. -/
theorem installed_fresh (installed : Option { b : Basis // b.geometry = g }) :
    (fresh g (installed.map (·.val))).installed = installed := by
  cases installed with
  | none => rfl
  | some b =>
    obtain ⟨b, rfl⟩ := b
    exact congrArg (·.engine.installed) (execute_install (blank b.geometry))

/-- A call leaves the basis that it installs, or else the one that was there. -/
theorem installed_call (e : Engine g) (c : Call) :
    (e.call c).engine.installed.map (·.val) =
      (e.installedBy c).or (e.installed.map (·.val)) := by
  rw [installedBy, call_eq_execute]
  generalize c.invocation = i
  let s : Session g := ⟨e, i.target⟩
  cases hverdict : i.verdict s.view with
  | error fault =>
    obtain ⟨hrefused, hview⟩ := Invocation.action_of_refused hverdict
    have houtcome : (e.execute i).outcome = .error fault := hrefused
    have hkept : (e.execute i).engine.installed = e.installed := congrArg View.installed hview
    rw [houtcome, hkept]
    cases i <;> rfl
  | ok p =>
    obtain ⟨report, buffer, hdetermined⟩ := Invocation.action_of_admitted hverdict
    obtain ⟨hsuccess, hview⟩ := hdetermined s rfl
    have houtcome : (e.execute i).outcome = .ok report := hsuccess
    have hafter : (e.execute i).engine.installed = i.installedAfter s.view p :=
      congrArg View.installed hview
    rw [houtcome, hafter]
    cases i with
    | install b => exact congrArg some (Invocation.val_of_verdict_install hverdict)
    | combine | transform | convert => rfl

/-- After a sequence of calls the basis of the last installation is there. -/
theorem installed_afterCalls (history : List Call) :
    ∀ e : Engine g, (e.afterCalls history).installed.map (·.val) =
      (e.lastInstalled history).or (e.installed.map (·.val)) := by
  induction history with
  | nil => exact fun e => rfl
  | cons c rest ih =>
    intro e
    rw [lastInstalled, Option.or_assoc, ← installed_call, ← ih]
    rfl

/-! ### Replies -/

/-- Calls on engines with the same basis have the same outcome, and leave the same buffer and the
same basis. -/
theorem call_congr {e e' : Engine g} (h : e.installed = e'.installed) (c : Call) :
    (e.call c).outcome = (e'.call c).outcome ∧ (e.call c).buffer = (e'.call c).buffer ∧
      (e.call c).engine.installed = (e'.call c).engine.installed := by
  have hview : Session.view ⟨e, c.invocation.target⟩ = Session.view ⟨e', c.invocation.target⟩ :=
    congrArg (View.mk · _) h
  obtain ⟨houtcome, hafter⟩ := c.invocation.action_congr hview
  rw [call_eq_execute, call_eq_execute]
  exact ⟨houtcome, congrArg View.buffer hafter, congrArg View.installed hafter⟩

/-- **No call depends on the calls before it**, but for the basis. After any sequence of calls on an
engine that was at rest, accepted or refused, dispatched or as methods, a call has the same outcome
and leaves the same buffer as on a fresh engine that has received the basis of the last installation
that succeeded, and nothing else. On no engine do calls depend on what is left in the banks and in
the buffers of the datapath. -/
theorem history_independent (g : Geometry) (history : List Call) (c : Call) :
    let used := (blank g).afterCalls history
    let clean := fresh g ((blank g).lastInstalled history)
    (used.call c).outcome = (clean.call c).outcome ∧
      (used.call c).buffer = (clean.call c).buffer ∧
      ∀ (e : Engine g) (left right : Bank g) (scratch : Scratch g),
        let stale : Engine g := { e with left, right, scratch }
        (stale.call c).outcome = (e.call c).outcome ∧
          (stale.call c).buffer = (e.call c).buffer := by
  intro used clean
  have hlast : (blank g).lastInstalled history = used.installed.map (·.val) :=
    ((installed_afterCalls history (blank g)).trans Option.or_none).symm
  have hinstalled : used.installed = clean.installed := by
    rw [← installed_fresh used.installed, ← hlast]
  obtain ⟨houtcome, hbuffer, -⟩ := call_congr hinstalled c
  refine ⟨houtcome, hbuffer, fun e left right scratch => ?_⟩
  have hsame : ({ e with left, right, scratch } : Engine g).installed = e.installed := rfl
  obtain ⟨houtcome, hbuffer, -⟩ := call_congr hsame c
  exact ⟨houtcome, hbuffer⟩

end Engine

end RnsEngine
