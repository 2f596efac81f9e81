import RnsEngine.Engine.Basic
import RnsEngine.Engine.Opcode

/-!
# Invocations

An invocation is an operation of the engine with its operands, the buffer that it writes to
included. `Engine.execute` performs it and returns a `Reply`: the outcome, the engine
afterwards, and the buffer afterwards. Only a base conversion reports a number of cycles.
-/

namespace RnsEngine

/-- An operation with its operands. -/
inductive Invocation where
  | install (basis : Basis)
  | combine (op : PointwiseOp) (left right target : Array UInt64) (window : Window)
  | transform (direction : Direction) (data : Array UInt64) (window : Window)
  | convert (shape : Shape) (input weights moduli target : Array UInt64)

namespace Invocation

/-- The opcode that selects the kernel of an operation. -/
def opcode : Invocation → Opcode
  | install _ => .init
  | combine .add .. => .add
  | combine .sub .. => .sub
  | combine .mul .. => .mul
  | transform .forward .. => .ntt
  | transform .inverse .. => .intt
  | convert .. => .bconv

/-- The buffer that is written to; installing a basis writes to none. -/
def target : Invocation → Array UInt64
  | install _ => #[]
  | combine _ _ _ target _ => target
  | transform _ data _ => data
  | convert _ _ _ _ target => target

/-- What the operation does to a session with its buffer. -/
def action {g : Geometry} : Invocation → Action g (Option Nat)
  | install b => do
    Engine.install b
    return none
  | combine op left right _ window => do
    Engine.combine op left right window
    return none
  | transform direction _ window => do
    Engine.transform direction window
    return none
  | convert shape input weights moduli _ => do
    let cycles ← Engine.convert shape input weights moduli
    return some cycles

end Invocation

/-- The outcome of an invocation, and what it leaves behind. -/
structure Reply (g : Geometry) where
  outcome : Except Fault (Option Nat)
  engine : Engine g
  buffer : Array UInt64

namespace Engine

variable {g : Geometry}

/-- Performs an invocation. -/
def execute (e : Engine g) (i : Invocation) : Reply g :=
  let (outcome, session) := i.action { engine := e, buffer := i.target }
  { outcome, engine := session.engine, buffer := session.buffer }

/-- Performs one invocation after another, collecting the replies. -/
def executeAll (e : Engine g) : List Invocation → List (Reply g)
  | [] => []
  | i :: rest =>
    let reply := e.execute i
    reply :: reply.engine.executeAll rest

/-- The engine after a sequence of invocations. -/
def after (e : Engine g) (history : List Invocation) : Engine g :=
  history.foldl (fun e i => (e.execute i).engine) e

end Engine

end RnsEngine
