/-!
# Word streams

All that sampling needs of a generator is that it gives one word after the other.
-/

namespace RnsEngine

/-- A source of words: the next word, and the source after it. -/
class WordStream (σ : Type) where
  next : σ → UInt64 × σ

/-- A fixed infinite sequence is a source; it is read from a position on. -/
structure Tape where
  word : Nat → UInt64
  position : Nat

instance : WordStream Tape where
  next t := (t.word t.position, { t with position := t.position + 1 })

/-- Passes over so many words. -/
def WordStream.skip {σ : Type} [WordStream σ] : Nat → σ → σ
  | 0, s => s
  | count + 1, s => skip count (WordStream.next s).2

/-- The word after so many others. -/
def WordStream.wordAt {σ : Type} [WordStream σ] (s : σ) (k : Nat) : UInt64 :=
  (WordStream.next (WordStream.skip k s)).1

end RnsEngine
