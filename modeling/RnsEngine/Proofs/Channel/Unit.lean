import RnsEngine.Channel.Exact

/-!
# Arithmetic units

The operations of a channel are exact only on reduced operands. A program that takes all its sums,
differences and products from an arithmetic unit (`ArithmeticUnit`) can be run on units of any kind,
and two of them matter. The plain unit of a channel (`Channel.plain`) computes in it. The asserting
unit (`Channel.asserting`) gives up on operands that are not reduced; a run on it that does not give
up has met none.

Both are units that compute in the channel on good operands and have good results
(`ArithmeticUnit.Computes`).
-/

namespace RnsEngine

universe u

/-- A unit of the datapath: a program for each operation on two words. -/
structure ArithmeticUnit (m : Type → Type u) where
  mul : UInt64 → UInt64 → m UInt64
  add : UInt64 → UInt64 → m UInt64
  sub : UInt64 → UInt64 → m UInt64

namespace Channel

/-- The unit that computes in the channel. -/
def plain (c : Channel) : ArithmeticUnit Id where
  mul a b := pure (c.mul a b)
  add a b := pure (c.add a b)
  sub a b := pure (c.sub a b)

/-- The result of an operation, when both operands are reduced. -/
def assert (c : Channel) (f : UInt64 → UInt64 → UInt64) (a b : UInt64) : Option UInt64 :=
  if a < c.modulus ∧ b < c.modulus then some (f a b) else none

/-- The unit that computes in the channel and asserts that its operands are reduced. -/
def asserting (c : Channel) : ArithmeticUnit Option where
  mul := c.assert c.mul
  add := c.assert c.add
  sub := c.assert c.sub

end Channel

namespace ArithmeticUnit

variable {m : Type → Type u} [Monad m]

/-- On good operands the unit computes in the channel, and the results are good. -/
structure Computes (unit : ArithmeticUnit m) (c : Channel) (Good : UInt64 → Prop) : Prop where
  mul : ∀ {a b}, Good a → Good b → unit.mul a b = pure (c.mul a b) ∧ Good (c.mul a b)
  add : ∀ {a b}, Good a → Good b → unit.add a b = pure (c.add a b) ∧ Good (c.add a b)
  sub : ∀ {a b}, Good a → Good b → unit.sub a b = pure (c.sub a b) ∧ Good (c.sub a b)

/-- Every word is good for the plain unit. -/
theorem computes_plain (c : Channel) : c.plain.Computes c fun _ => True where
  mul _ _ := ⟨rfl, trivial⟩
  add _ _ := ⟨rfl, trivial⟩
  sub _ _ := ⟨rfl, trivial⟩

/-- Reduced words are good for the asserting unit. -/
theorem computes_asserting (c : Channel) : c.asserting.Computes c fun x => x < c.modulus where
  mul ha hb := ⟨if_pos ⟨ha, hb⟩, c.mul_lt ha hb⟩
  add ha hb := ⟨if_pos ⟨ha, hb⟩, c.add_lt ha hb⟩
  sub ha hb := ⟨if_pos ⟨ha, hb⟩, c.sub_lt ha hb⟩

end ArithmeticUnit

end RnsEngine
