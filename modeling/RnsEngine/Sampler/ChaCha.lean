import RnsEngine.Sampler.Stream

/-!
# The eight-round stream generator

A block of sixteen 32-bit words is computed from a key of eight words and a block number: four
constants, the key, the block number in two words and two words of zero are mixed by eight
rounds, alternately along the columns and the diagonals of a four by four square, and added to
the mixed block. The stream is that of blocks zero, one, two, …; two words of a block make one
word of the stream, the lower half first.
-/

namespace RnsEngine

/-- A block of sixteen words. -/
abbrev Block := Vector UInt32 16

namespace Block

/-- Rotates the bits of a word to the left. -/
def rotate (x : UInt32) (count : UInt32) : UInt32 :=
  (x <<< count) ||| (x >>> (32 - count))

/-- Mixes four words of a block. -/
def quarter (a b c d : Fin 16) (v : Block) : Block :=
  let v := v.set a (v[a] + v[b])
  let v := v.set d (rotate (v[d] ^^^ v[a]) 16)
  let v := v.set c (v[c] + v[d])
  let v := v.set b (rotate (v[b] ^^^ v[c]) 12)
  let v := v.set a (v[a] + v[b])
  let v := v.set d (rotate (v[d] ^^^ v[a]) 8)
  let v := v.set c (v[c] + v[d])
  v.set b (rotate (v[b] ^^^ v[c]) 7)

/-- A round along the columns. -/
def columnRound (v : Block) : Block :=
  quarter 3 7 11 15 (quarter 2 6 10 14 (quarter 1 5 9 13 (quarter 0 4 8 12 v)))

/-- A round along the diagonals. -/
def diagonalRound (v : Block) : Block :=
  quarter 3 4 9 14 (quarter 2 7 8 13 (quarter 1 6 11 12 (quarter 0 5 10 15 v)))

/-- The eight rounds. -/
def mix (v : Block) : Block :=
  Nat.fold 4 (fun _ _ v => diagonalRound (columnRound v)) v

/-- The words of the key and the block number in their places. -/
def initial (key : Vector UInt32 8) (number : UInt64) : Block :=
  let constants : Vector UInt32 4 := #v[0x61707865, 0x3320646e, 0x79622d32, 0x6b206574]
  let place : Vector UInt32 4 := #v[number.toUInt32, (number >>> 32).toUInt32, 0, 0]
  constants ++ key ++ place

/-- The block of a key with a number. -/
def ofKey (key : Vector UInt32 8) (number : UInt64) : Block :=
  let start := initial key number
  Vector.zipWith (· + ·) (mix start) start

/-- Two words of a block as one word of the stream. -/
def word (v : Block) (i : Fin 8) : UInt64 :=
  let low := v[2 * i.val]
  let high := v[2 * i.val + 1]
  low.toUInt64 ||| (high.toUInt64 <<< 32)

/-- The words of the stream that a block gives. -/
def words (v : Block) : Vector UInt64 8 := Vector.ofFn v.word

end Block

/-- A place in a stream: the key, the number of the next block, and the words of the current
block that are still to come. -/
structure ChaCha where
  key : Vector UInt32 8
  number : UInt64
  pending : List UInt64
deriving DecidableEq, Repr

namespace ChaCha

/-- The stream of a seed of 32 bytes, read as eight words with the lowest byte first. -/
def ofSeed (seed : Vector UInt8 32) : ChaCha :=
  { key := Vector.ofFn fun i =>
      seed[4 * i.val].toUInt32 ||| (seed[4 * i.val + 1].toUInt32 <<< 8) |||
        (seed[4 * i.val + 2].toUInt32 <<< 16) ||| (seed[4 * i.val + 3].toUInt32 <<< 24)
    number := 0
    pending := [] }

/-- The next word; a new block is computed where the current one is used up. -/
def next (s : ChaCha) : UInt64 × ChaCha :=
  match s.pending with
  | word :: rest => (word, { s with pending := rest })
  | [] =>
    let words := (Block.ofKey s.key s.number).words
    (words[0], { s with number := s.number + 1, pending := words.toList.tail })

instance : WordStream ChaCha := ⟨next⟩

end ChaCha

end RnsEngine
