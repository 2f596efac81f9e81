import RnsEngine.Tile.Basic

/-!
# Transfers between buffers and banks

A buffer holds channel after channel, each row after row: the entry in row `i` and column `j`
of channel `l` has the address `l * ringDim + i * side + j`. A transfer moves the first `count`
channels. It is refused, with nothing moved, when the bank has fewer tiles or the buffer fewer
words; tiles and words past the moved ones keep what they hold.
-/

namespace RnsEngine

namespace Transfer

variable {g : Geometry}

/-- The address of an entry; the numbers are not checked. -/
def address (g : Geometry) (channel i j : Nat) : Nat :=
  channel * g.ringDim + i * g.side + j

/-- A transfer of `count` channels is possible with a buffer of `size` words. -/
def Fits (g : Geometry) (count size : Nat) : Prop :=
  count ≤ g.capacity ∧ g.words count ≤ size

instance (g : Geometry) (count size : Nat) : Decidable (Fits g count size) :=
  inferInstanceAs (Decidable (_ ∧ _))

/-- Why a transfer is not possible, the number of tiles first. -/
def refusal (g : Geometry) (role : Role) (count size : Nat) : Fault :=
  if g.capacity < count then .tooManyChannels count g.capacity
  else .bufferTooShort role (g.words count) size

/-- A word of a moved channel lies inside the buffer. -/
theorem word_lt {count size channel k : Nat} (h : Fits g count size) (hc : channel < count)
    (hk : k < g.ringDim) : channel * g.ringDim + k < size := by
  have hle : (channel + 1) * g.ringDim ≤ count * g.ringDim := Nat.mul_le_mul_right _ hc
  rw [Nat.add_mul, Nat.one_mul] at hle
  have hw : count * g.ringDim ≤ size := h.2
  omega

/-- The tile of one channel of a buffer. -/
def tileAt (source : Array UInt64) (channel : Nat)
    (h : ∀ k, k < g.ringDim → channel * g.ringDim + k < source.size) : Tile g.side :=
  ⟨Vector.ofFn fun k => getElem source (channel * g.ringDim + k.val) (h k.val k.isLt)⟩

/-- Copies the first `count` channels of a buffer into the tiles of a bank. -/
def load (source : Array UInt64) (bank : Bank g) (count : Nat) : Except Fault (Bank g) :=
  if h : Fits g count source.size then
    .ok <| bank.mapFinIdx fun l tile _ =>
      if hl : l < count then tileAt source l fun _ hk => word_lt h hl hk else tile
  else .error (refusal g .transferSource count source.size)

/-- The tile of a moved word exists. -/
theorem channel_lt {count size k : Nat} (h : Fits g count size) (hk : k < g.words count) :
    k / g.ringDim < g.capacity :=
  Nat.lt_of_lt_of_le (Nat.div_lt_of_lt_mul (Nat.mul_comm _ _ ▸ hk)) h.1

/-- Copies the first `count` tiles of a bank into a buffer. -/
def store (bank : Bank g) (target : Array UInt64) (count : Nat) :
    Except Fault (Array UInt64) :=
  if h : Fits g count target.size then
    .ok <| target.mapFinIdx fun k word _ =>
      if hk : k < g.words count then
        let tile := getElem bank (k / g.ringDim) (channel_lt h hk)
        getElem tile.words (k % g.ringDim) (Nat.mod_lt _ g.ringDim_pos)
      else word
  else .error (refusal g .transferTarget count target.size)

end Transfer

end RnsEngine
