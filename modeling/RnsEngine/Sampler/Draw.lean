import RnsEngine.Sampler.Stream
import RnsEngine.Word.Bits

/-!
# Sampling below a bound

A uniform number below a bound is drawn by rejection: words are masked to as many digits as the
largest allowed value has, and the first masked word below the bound is taken. Buffers are
filled by independent draws, channel after channel.

A stream need not hold an acceptable word, so every draw is given the number of words that it
may look at.
-/

namespace RnsEngine

namespace Sampler

/-- The causes for which nothing is drawn. -/
inductive Refusal where
  | zeroBound
  | shortBuffer (needed got : Nat)
  | zeroLength
  /-- No acceptable word among those that were allowed. -/
  | starved
deriving DecidableEq, Repr

/-- A number of words that no stream is searched beyond in practice. -/
def patience : Nat := 2 ^ 62

variable {σ : Type} [WordStream σ]

/-- The first word that is below `bound` after masking, among as many as the first argument
allows. -/
def masked : Nat → UInt64 → UInt64 → σ → Except Refusal (UInt64 × σ)
  | 0, _, _, _ => .error .starved
  | limit + 1, bound, mask, s =>
    let (word, s) := WordStream.next s
    let x := word &&& mask
    if bound ≤ x then masked limit bound mask s else .ok (x, s)

/-- The mask of the digits of the largest number below a bound; at least one digit. -/
def maskBelow (bound : UInt64) : UInt64 :=
  let leadingZeros := 64 - bitLength (bound - 1).toNat
  0xFFFFFFFFFFFFFFFF >>> UInt64.ofNat (min leadingZeros 63)

/-- A number below a bound. -/
def below (limit : Nat) (bound : UInt64) (s : σ) : Except Refusal (UInt64 × σ) :=
  if bound = 0 then .error .zeroBound else masked limit bound (maskBelow bound) s

/-- So many numbers below a bound. -/
def manyBelow (limit : Nat) (bound : UInt64) : Nat → σ → Except Refusal (List UInt64 × σ)
  | 0, s => .ok ([], s)
  | count + 1, s => do
    let (x, s) ← below limit bound s
    let (xs, s) ← manyBelow limit bound count s
    return (x :: xs, s)

/-- So many numbers below each modulus, modulus after modulus. -/
def manyResidues (limit n : Nat) : List UInt64 → σ → Except Refusal (List UInt64 × σ)
  | [], s => .ok ([], s)
  | modulus :: moduli, s => do
    let (xs, s) ← manyBelow limit modulus n s
    let (ys, s) ← manyResidues limit n moduli s
    return (xs ++ ys, s)

/-- Fills a buffer with numbers below a bound. -/
def fillBelow (limit : Nat) (bound : UInt64) (buffer : List UInt64) (s : σ) :
    Except Refusal (List UInt64 × σ) :=
  manyBelow limit bound buffer.length s

/-- Fills the front of a buffer with `n` numbers below each modulus. -/
def fillResidues (limit : Nat) (moduli : List UInt64) (n : Nat) (buffer : List UInt64) (s : σ) :
    Except Refusal (List UInt64 × σ) :=
  let needed := moduli.length * n
  if buffer.length < needed then .error (.shortBuffer needed buffer.length)
  else if n = 0 then .error .zeroLength
  else do
    let (xs, s) ← manyResidues limit n moduli s
    return (xs ++ buffer.drop needed, s)

/-- A new buffer with `n` numbers below each modulus. -/
def residues (limit : Nat) (moduli : List UInt64) (n : Nat) (s : σ) :
    Except Refusal (List UInt64 × σ) :=
  fillResidues limit moduli n (List.replicate (moduli.length * n) 0) s

end Sampler

end RnsEngine
