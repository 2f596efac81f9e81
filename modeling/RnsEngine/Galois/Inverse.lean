import RnsEngine.Fault

/-!
# Inverses modulo a power of two

An odd number is its own inverse modulo eight, and each Newton step `x * (2 - k * x)` doubles
the number of correct binary digits. Five steps give 96 digits, more than a word has, so the
low digits of the result are the inverse modulo any power of two that is a word.
-/

namespace RnsEngine

/-- One Newton step towards the inverse of `k`, on the word circle. -/
def newtonStep (k x : UInt64) : UInt64 := x * (2 - k * x)

/-- The inverse of an odd word on the word circle. -/
def oddInverse (k : UInt64) : UInt64 :=
  Nat.fold 5 (fun _ _ x => newtonStep k x) k

/-- The inverse of `k` modulo `order`, which must be a power of two; even numbers have none. -/
def galoisInverse (k order : UInt64) : Except Fault UInt64 :=
  if order = 0 ∨ order &&& (order - 1) ≠ 0 then .error (.notPowerOfTwo order.toNat)
  else if k &&& 1 = 0 then .error (.galoisNotCoprime k.toNat order.toNat)
  else .ok (oddInverse k &&& (order - 1))

end RnsEngine
