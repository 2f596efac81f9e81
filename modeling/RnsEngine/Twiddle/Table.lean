import RnsEngine.Channel.Basic
import RnsEngine.Twiddle.Layout

/-!
# Twiddle tables

A table holds the factors of one channel for one direction of the transform: powers of a root
of unity of order `2 * ringDim` forwards, powers of its inverse backwards. The backward twist
also carries the inverse of the ring dimension, so that no separate scaling is needed.

`Table.ofRoot` derives a table from a root, which it accepts when its power with exponent
`ringDim` is `-1`. `Table.ofWords` takes over the words of a table that was made elsewhere,
provided that their number is right and all of them are reduced.
-/

namespace RnsEngine

/-- The two directions of the transform. -/
inductive Direction where
  | forward
  | inverse
deriving DecidableEq, Repr

/-- The factors of one direction in their layout. -/
structure Table where
  direction : Direction
  words : Array UInt64
deriving DecidableEq, Repr

namespace Table

variable {g : Geometry}

/-! ### The values of the factors -/

/-- The power of the root that a factor is. -/
def exponent : Slot g → Nat
  | .stage s b => 2 * g.side * (b.val % 2 ^ s.val) * (g.side / 2 ^ (s.val + 1))
  | .twist row => g.side * row.val
  | .pass row column => column.val * (2 * row.val + 1)

/-- The value of a factor; those of the twist are scaled. -/
def factor (c : Channel) (root scale : UInt64) (slot : Slot g) : UInt64 :=
  match slot with
  | .twist _ => c.mul (c.pow root (exponent slot)) scale
  | _ => c.pow root (exponent slot)

/-- Writes every factor to its place in a table of zeros. -/
def fill (g : Geometry) (value : Slot g → UInt64) : Vector UInt64 g.tableSize :=
  (Slot.all g).foldl (fun words slot => words.set slot.index (value slot) slot.index_lt)
    (Vector.replicate g.tableSize 0)

/-- The table with the powers of `root`. -/
def ofFactors (g : Geometry) (c : Channel) (direction : Direction) (root scale : UInt64) :
    Table :=
  { direction, words := (fill g (factor c root scale)).toArray }

/-- A word is a root of unity of the wanted order: its power with the ring dimension as
exponent is `-1`. -/
def IsRoot (g : Geometry) (c : Channel) (psi : UInt64) : Prop :=
  c.pow psi g.ringDim = c.modulus - 1

instance (g : Geometry) (c : Channel) (psi : UInt64) : Decidable (IsRoot g c psi) :=
  inferInstanceAs (Decidable (_ = _))

/-- The table of a direction, derived from a root. -/
def ofRoot (g : Geometry) (c : Channel) (psi : UInt64) (direction : Direction) :
    Except Fault Table :=
  let psi := psi % c.modulus
  if IsRoot g c psi then
    match direction with
    | .forward => .ok (ofFactors g c .forward psi 1)
    | .inverse => do
      let root ← c.inv psi
      let scale ← c.inv (UInt64.ofNat g.ringDim)
      return ofFactors g c .inverse root scale
  else .error (.noPrimitiveRoot c.modulus (UInt64.ofNat g.order))

/-- The table of a direction with given words. -/
def ofWords (g : Geometry) (c : Channel) (words : Array UInt64) (direction : Direction) :
    Except Fault Table :=
  if words.size ≠ g.tableSize then
    .error (.lengthMismatch .twiddleTable g.tableSize words.size)
  else
    match words.find? fun x => decide (c.modulus ≤ x) with
    | some x => .error (.operandOutOfRange .twiddleTable x c.modulus)
    | none => .ok { direction, words }

/-! ### Reading -/

/-- The word at an index. -/
def get? (t : Table) (index : Nat) : Option UInt64 := t.words[index]?

/-- The table serves a direction of a geometry. -/
def Fits (t : Table) (g : Geometry) (direction : Direction) : Prop :=
  t.direction = direction ∧ t.words.size = g.tableSize

instance (t : Table) (g : Geometry) (direction : Direction) :
    Decidable (t.Fits g direction) :=
  inferInstanceAs (Decidable (_ ∧ _))

/-- The table reaches over all places of the layout. -/
def Covers (t : Table) (g : Geometry) : Prop := Layout.extent g ≤ t.words.size

instance (t : Table) (g : Geometry) : Decidable (t.Covers g) :=
  inferInstanceAs (Decidable (_ ≤ _))

/-- A table of the right size reaches over the layout. -/
theorem Fits.covers {t : Table} {direction : Direction} (h : t.Fits g direction) :
    t.Covers g :=
  Nat.le_trans (Layout.extent_le_tableSize g) (Nat.le_of_eq h.2.symm)

/-- The value of a factor in a table. -/
def read (t : Table) (h : t.Covers g) (slot : Slot g) : UInt64 :=
  getElem t.words slot.index (Nat.lt_of_lt_of_le slot.index_lt_extent h)

/-- A derived table has the right size. -/
theorem ofFactors_fits (g : Geometry) (c : Channel) (direction : Direction)
    (root scale : UInt64) : (ofFactors g c direction root scale).Fits g direction :=
  ⟨rfl, Vector.size_toArray _⟩

/-- A derived table serves the direction that was asked for. -/
theorem fits_of_ofRoot {c : Channel} {psi : UInt64} {direction : Direction} {t : Table}
    (h : ofRoot g c psi direction = .ok t) : t.Fits g direction := by
  simp only [ofRoot] at h
  split at h
  · cases direction with
    | forward =>
      cases h
      exact ofFactors_fits g c _ _ _
    | inverse =>
      cases hroot : c.inv (psi % c.modulus) with
      | error e => simp [hroot, bind, Except.bind] at h
      | ok root =>
        cases hscale : c.inv (UInt64.ofNat g.ringDim) with
        | error e => simp [hroot, hscale, bind, Except.bind] at h
        | ok scale =>
          simp only [hroot, hscale, bind, Except.bind, pure, Except.pure] at h
          cases h
          exact ofFactors_fits g c _ _ _
  · cases h

end Table

end RnsEngine
