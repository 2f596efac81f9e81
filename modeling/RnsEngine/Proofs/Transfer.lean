import Mathlib.Data.Nat.Init
import RnsEngine.Transfer

/-!
# Buffers as channels

A buffer is read channel after channel: `Transfer.chunk` is the tile that a channel of it holds.
What an operation of the engine does to the buffer of its caller is of one kind: the leading
channels become certain tiles, and every word past them is kept. `Transfer.Rewrites` says so, and
determines the buffer (`Transfer.Rewrites.unique`).

A transfer that fits succeeds: `Transfer.load_spec` and `Transfer.store_spec` say with what. What a
bank holds of a buffer that was staged in it is `Transfer.Holds`.
-/

namespace RnsEngine

namespace Transfer

variable {g : Geometry} {count : ℕ} {before after : Array UInt64}

/-! ### Chunks -/

/-- The tile that a channel of a buffer holds. Words past the end read as zero. -/
def chunk (g : Geometry) (data : Array UInt64) (channel : ℕ) : Tile g.side :=
  ⟨Vector.ofFn fun k => data.getD (channel * g.ringDim + k.val) 0⟩

/-- A word of a chunk is a word of the buffer. -/
@[simp] theorem words_chunk (data : Array UInt64) (channel : ℕ) (k : Fin (g.side * g.side)) :
    (chunk g data channel).words.get k = data.getD (channel * g.ringDim + k.val) 0 :=
  Vector.getElem_ofFn k.isLt

/-- The tile of a channel that lies inside the buffer is its chunk. -/
theorem tileAt_eq_chunk (data : Array UInt64) (channel : ℕ)
    (h : ∀ k, k < g.ringDim → channel * g.ringDim + k < data.size) :
    tileAt data channel h = chunk g data channel := by
  simp only [tileAt, chunk]
  congr 2
  funext k
  rw [Array.getD_eq_getD_getElem?, Array.getElem?_eq_getElem (h k k.isLt), Option.getD_some]

/-- A word belongs to the channel that its address names. -/
theorem address_div {k : ℕ} (l : ℕ) (hk : k < g.ringDim) :
    (l * g.ringDim + k) / g.ringDim = l := by
  rw [Nat.mul_comm, Nat.mul_add_div g.ringDim_pos, Nat.div_eq_of_lt hk, Nat.add_zero]

/-- A word of a leading channel is among the leading words. -/
theorem address_lt {l k : ℕ} (hl : l < count) (hk : k < g.ringDim) :
    l * g.ringDim + k < g.words count := by
  rw [Nat.mul_comm l]
  exact Nat.mul_add_lt_mul_of_lt_of_lt hl hk

/-! ### Rewritten buffers -/

/-- The leading channels of a buffer have become given tiles, and all other words are kept. -/
structure Rewrites (g : Geometry) (count : ℕ) (tile : (l : ℕ) → l < count → Tile g.side)
    (before after : Array UInt64) : Prop where
  size_eq : after.size = before.size
  chunk_eq : ∀ l hl, chunk g after l = tile l hl
  tail_eq : ∀ i, g.words count ≤ i → after[i]? = before[i]?

/-- Buffers of one size with the same leading channels and the same words past them are equal. -/
theorem ext_chunk (g : Geometry) (count : ℕ) (hsize : after.size = before.size)
    (hchunk : ∀ l, l < count → chunk g after l = chunk g before l)
    (htail : ∀ i, g.words count ≤ i → after[i]? = before[i]?) : after = before := by
  refine Array.ext hsize fun i hi hi' => ?_
  by_cases hlt : i < g.words count
  · have hdiv : i / g.ringDim < count := Nat.div_lt_of_lt_mul (Nat.mul_comm _ _ ▸ hlt)
    let k : Fin (g.side * g.side) := ⟨i % g.ringDim, Nat.mod_lt _ g.ringDim_pos⟩
    have hword := congrArg (fun t => t.words.get k) (hchunk _ hdiv)
    simp only [words_chunk, k, Nat.div_add_mod'] at hword
    simpa [Array.getD_eq_getD_getElem?, hi, hi'] using hword
  · have hword := htail i (Nat.le_of_not_lt hlt)
    rwa [Array.getElem?_eq_getElem hi, Array.getElem?_eq_getElem hi', Option.some_inj] at hword

/-- Buffers that are rewritten from the same one in the same way are equal. -/
theorem Rewrites.unique {tile : (l : ℕ) → l < count → Tile g.side} {after' : Array UInt64}
    (h : Rewrites g count tile before after) (h' : Rewrites g count tile before after') :
    after = after' := by
  refine ext_chunk g count (h.size_eq.trans h'.size_eq.symm) (fun l hl => ?_) fun i hi => ?_
  · rw [h.chunk_eq l hl, h'.chunk_eq l hl]
  · rw [h.tail_eq i hi, h'.tail_eq i hi]

/-! ### Transfers that fit -/

/-- Loading fills the leading tiles with the chunks of the buffer and keeps the others. -/
theorem load_spec {source : Array UInt64} (bank : Bank g) (h : Fits g count source.size) :
    ∃ filled, load source bank count = .ok filled ∧ ∀ l (hl : l < g.capacity),
      getElem filled l hl = if l < count then chunk g source l else getElem bank l hl := by
  refine ⟨_, by rw [load, dif_pos h], fun l hl => ?_⟩
  rw [Vector.getElem_mapFinIdx]
  split
  · exact tileAt_eq_chunk _ _ _
  · rfl

/-- Storing rewrites the buffer with the leading tiles of the bank. -/
theorem store_spec {target : Array UInt64} (bank : Bank g) (h : Fits g count target.size) :
    ∃ written, store bank target count = .ok written ∧
      Rewrites g count (fun l hl => getElem bank l (Nat.lt_of_lt_of_le hl h.1)) target written := by
  refine ⟨_, by rw [store, dif_pos h], by simp, fun l hl => ?_, fun i hi => ?_⟩
  · have hword : ∀ k, k < g.ringDim → l * g.ringDim + k < target.size := fun _ hk =>
      word_lt h hl hk
    refine congrArg Tile.mk (Vector.ext fun k hk => ?_)
    have hdiv := address_div l hk
    have hmod : k % g.ringDim = k := Nat.mod_eq_of_lt hk
    have hlt := address_lt hl hk
    simp [Array.getD_eq_getD_getElem?, hword k hk, hlt, hdiv, hmod]
  · simp only [Array.getElem?_mapFinIdx, dif_neg (Nat.not_lt.2 hi)]
    cases target[i]? <;> rfl

/-! ### Staged buffers -/

/-- The bank that holds the channels of a buffer. -/
def chunks (g : Geometry) (data : Array UInt64) : Bank g :=
  Vector.ofFn fun l => chunk g data l.val

/-- A tile of such a bank is a chunk of the buffer. -/
@[simp] theorem get_chunks (data : Array UInt64) (l : Fin g.capacity) :
    (chunks g data).get l = chunk g data l.val :=
  Vector.getElem_ofFn l.isLt

/-- The leading tiles of a bank are the channels of a buffer. -/
def Holds (bank : Bank g) (data : Array UInt64) (count : ℕ) : Prop :=
  ∀ l (hl : l < g.capacity), l < count → getElem bank l hl = chunk g data l

/-- A buffer must have enough words to be staged. -/
def checkSource (g : Geometry) (count size : ℕ) : Except Fault Unit :=
  if Fits g count size then .ok () else .error (refusal g .transferSource count size)

/-- A buffer can be staged when the transfer fits. -/
theorem checkSource_eq_ok_iff {count size : ℕ} :
    checkSource g count size = .ok () ↔ Fits g count size := by
  rw [checkSource]
  split <;> simp [*]

/-- A buffer that fits can be staged, and then the bank holds it. -/
theorem load_holds {data : Array UInt64} (bank : Bank g) (h : Fits g count data.size) :
    ∃ filled, load data bank count = .ok filled ∧ Holds filled data count := by
  obtain ⟨filled, hload, htiles⟩ := load_spec bank h
  exact ⟨filled, hload, fun l hl hactive => by rw [htiles, if_pos hactive]⟩

/-- Staging finds what the check finds. -/
theorem load_cases (data : Array UInt64) (bank : Bank g) (count : ℕ) :
    (∃ filled, load data bank count = .ok filled ∧ checkSource g count data.size = .ok () ∧
        Holds filled data count) ∨
      ∃ fault, load data bank count = .error fault ∧
        checkSource g count data.size = .error fault := by
  by_cases h : Fits g count data.size
  · obtain ⟨filled, hload, hholds⟩ := load_holds bank h
    exact .inl ⟨filled, hload, if_pos h, hholds⟩
  · exact .inr ⟨_, dif_neg h, if_neg h⟩

end Transfer

end RnsEngine
