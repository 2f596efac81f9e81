import RnsEngine.Fault

/-!
# Opcodes

Every kernel of the engine has a one-byte code. Codes are consecutive from zero, and decoding
undoes encoding.
-/

namespace RnsEngine

/-- The kernels of the engine. -/
inductive Opcode where
  | init
  | add
  | sub
  | mul
  | ntt
  | intt
  | bconv
deriving DecidableEq, Repr

namespace Opcode

/-- All opcodes in the order of their codes. -/
def all : List Opcode := [init, add, sub, mul, ntt, intt, bconv]

/-- The code of an opcode. -/
def code : Opcode → UInt8
  | init => 0
  | add => 1
  | sub => 2
  | mul => 3
  | ntt => 4
  | intt => 5
  | bconv => 6

/-- The opcode with a code. -/
def ofCode (code : UInt8) : Except Fault Opcode :=
  match all[code.toNat]? with
  | some opcode => .ok opcode
  | none => .error (.unknownOpcode code)

/-- The name of an opcode. -/
def name : Opcode → String
  | init => "Init"
  | add => "Add"
  | sub => "Sub"
  | mul => "Mul"
  | ntt => "Ntt"
  | intt => "Intt"
  | bconv => "Bconv"

/-- Decoding undoes encoding. -/
theorem ofCode_code (o : Opcode) : ofCode o.code = .ok o := by
  cases o <;> rfl

end Opcode

end RnsEngine
