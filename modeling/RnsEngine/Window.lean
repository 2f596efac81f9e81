import RnsEngine.Fault
import RnsEngine.Word.Bits

/-!
# Windows of channels

An invocation works on the first `count` tiles, and tile `l` belongs to the modulus with index
`offset + l`. Such a window is admissible when the tiles exist and all its modulus indices are
installed; `Window.validate` checks the two in this order and returns the indices as a `Span`,
which carries both bounds.
-/

namespace RnsEngine

/-- The number of active tiles and the modulus index of the first. -/
structure Window where
  count : Nat
  offset : Nat
deriving DecidableEq, Repr

/-- The modulus indices of a window that was found admissible: those from `start` on, as many
as there are active tiles. -/
structure Span (capacity available : Nat) where
  start : Nat
  count : Nat
  count_le : count ≤ capacity
  stop_le : start + count ≤ available
deriving DecidableEq

/-- One past the last modulus index. -/
def Span.stop {capacity available : Nat} (s : Span capacity available) : Nat :=
  s.start + s.count

/-- The modulus index of every active tile is installed. -/
theorem Span.index_lt {capacity available l : Nat} (s : Span capacity available)
    (h : l < s.count) : s.start + l < available := by
  have := s.stop_le
  omega

/-- The place of an active tile among all tiles. -/
def Span.tile {capacity available : Nat} (s : Span capacity available) (l : Fin s.count) :
    Fin capacity :=
  ⟨l.val, Nat.lt_of_lt_of_le l.isLt s.count_le⟩

namespace Window

/-- The first so many channels. -/
def leading (count : Nat) : Window := { count, offset := 0 }

/-- The largest word, at which reported indices stop. -/
def maxWord : Nat := 2 ^ 64 - 1

/-- Checks a window against the number of tiles and the number of installed moduli. -/
def validate (w : Window) (capacity available : Nat) : Except Fault (Span capacity available) :=
  if hc : w.count ≤ capacity then
    if hs : w.offset + w.count ≤ available then .ok ⟨w.offset, w.count, hc, hs⟩
    else .error (.windowOutOfRange w.offset (min (w.offset + w.count) maxWord) available)
  else .error (.tooManyChannels w.count capacity)

/-- A window is admissible exactly when both bounds hold. -/
theorem validate_eq_ok_iff {w : Window} {capacity available : Nat}
    {s : Span capacity available} :
    w.validate capacity available = .ok s ↔ s.start = w.offset ∧ s.count = w.count := by
  obtain ⟨start, count, hc, hs⟩ := s
  unfold validate
  constructor
  · intro h
    split at h
    · split at h
      · cases h
        exact ⟨rfl, rfl⟩
      · cases h
    · cases h
  · rintro ⟨h1, h2⟩
    simp only at h1 h2
    subst h1
    subst h2
    rw [dif_pos hc, dif_pos hs]

end Window

end RnsEngine
