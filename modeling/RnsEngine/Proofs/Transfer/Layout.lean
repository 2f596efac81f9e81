import Mathlib.Order.Interval.Set.Defs
import RnsEngine.Proofs.Fold
import RnsEngine.Proofs.Refusal
import RnsEngine.Proofs.Transfer

/-!
# Transfers in place

A transfer walks through the chunks of a buffer and the tiles of a bank side by side. Loading copies
each chunk over its tile (`Transfer.loadInPlace`), storing each tile over the words of its chunk
(`Transfer.storeInPlace`). What a loaded bank and a stored buffer are was said in closed form; here
the walks are shown to arrive there, and to change nothing when they are refused
(`Transfer.loadInPlace_eq`, `Transfer.storeInPlace_eq`).

Chunks and addresses are one layout: the addresses of the entries of the leading channels are the
leading places of a buffer, each once (`Transfer.address_bijOn`), and a tile that was copied shows
the words at the addresses of its entries (`Transfer.Shows`). So what was loaded is stored as it
was, and the other way round: `Transfer.transfer_outcome`.
-/

namespace RnsEngine

namespace Transfer

variable {g : Geometry} {count : ℕ}

/-! ### Addresses -/

/-- The address of an entry, computed with words. -/
def addressWord (g : Geometry) (channel i j : ℕ) : UInt64 :=
  .ofNat channel * .ofNat g.ringDim + .ofNat i * .ofNat g.side + .ofNat j

/-- The entry that has an address: its channel, row and column. -/
def placeOf (g : Geometry) (k : ℕ) : ℕ × ℕ × ℕ :=
  (k / g.ringDim, k % g.ringDim / g.side, k % g.ringDim % g.side)

/-- The entries of the leading channels. -/
def places (g : Geometry) (count : ℕ) : Set (ℕ × ℕ × ℕ) :=
  {p | p.1 < count ∧ p.2.1 < g.side ∧ p.2.2 < g.side}

/-- An address is the place of a word in its channel, after all earlier channels. -/
theorem address_eq (l : ℕ) (i j : Fin g.side) :
    address g l i j = l * g.ringDim + (Tile.index i j).val := Nat.add_assoc _ _ _

/-- The rest of an address is the place of the word in its channel. -/
theorem address_mod (l : ℕ) {k : ℕ} (hk : k < g.ringDim) : (l * g.ringDim + k) % g.ringDim = k := by
  rw [Nat.mul_add_mod_self_right]
  exact Nat.mod_eq_of_lt hk

/-- An address that is a word is computed with words. -/
theorem toNat_addressWord {l i j : ℕ} (h : address g l i j < 2 ^ 64) :
    (addressWord g l i j).toNat = address g l i j := by
  simp only [addressWord, UInt64.toNat_add, UInt64.toNat_mul, UInt64.toNat_ofNat', Nat.mod_add_mod,
    Nat.add_mod_mod, ← Nat.mul_mod]
  exact Nat.mod_eq_of_lt h

/-- An address leads back to its entry. -/
theorem placeOf_address (l : ℕ) (i j : Fin g.side) : placeOf g (address g l i j) = (l, ↑i, ↑j) := by
  have hk := (Tile.index i j).isLt
  rw [placeOf, address_eq, address_div l hk, address_mod l hk]
  exact congrArg (Prod.mk l) (Prod.ext (congrArg Fin.val (Tile.row_index i j))
    (congrArg Fin.val (Tile.column_index i j)))

/-- Every number is the address of the entry that it names. -/
theorem address_placeOf (k : ℕ) :
    address g (placeOf g k).1 (placeOf g k).2.1 (placeOf g k).2.2 = k := by
  rw [address, placeOf, Nat.add_assoc, Nat.div_add_mod', Nat.div_add_mod']

/-- **Addresses.** The entries of the leading channels have the leading places of a buffer as their
addresses, each of them once. -/
theorem address_bijOn (g : Geometry) (count : ℕ) :
    Set.BijOn (fun p => address g p.1 p.2.1 p.2.2) (places g count)
      (Set.Iio (count * g.ringDim)) := by
  have hinv : Set.InvOn (placeOf g) (fun p => address g p.1 p.2.1 p.2.2) (places g count)
      (Set.Iio (count * g.ringDim)) := by
    refine ⟨?_, fun k _ => address_placeOf k⟩
    rintro ⟨l, i, j⟩ ⟨-, hi, hj⟩
    exact placeOf_address l ⟨i, hi⟩ ⟨j, hj⟩
  refine hinv.bijOn ?_ ?_
  · rintro ⟨l, i, j⟩ ⟨hl, hi, hj⟩
    exact (address_eq l ⟨i, hi⟩ ⟨j, hj⟩).trans_lt (address_lt hl (Tile.index _ _).isLt)
  · intro k hk
    exact ⟨Nat.div_lt_of_lt_mul (Nat.mul_comm _ _ ▸ hk),
      Nat.div_lt_of_lt_mul (Nat.mod_lt _ g.ringDim_pos), Nat.mod_lt _ g.side_pos⟩

/-! ### Programs -/

/-- The check that is made before anything is moved, of the number of tiles first. -/
def checkFits (g : Geometry) (role : Role) (count size : ℕ) : Except Fault Unit :=
  if g.capacity < count then .error (.tooManyChannels count g.capacity)
  else if size < g.words count then .error (.bufferTooShort role (g.words count) size)
  else .ok ()

/-- A word of a chunk is a word of the buffer. -/
theorem chunk_word_lt {n size l k : ℕ} (hl : l < size / n) (hk : k < n) : l * n + k < size := by
  have hle : (l + 1) * n ≤ size / n * n := Nat.mul_le_mul_right n hl
  have hsize : size / n * n ≤ size := Nat.div_mul_le_self size n
  rw [Nat.succ_mul] at hle
  omega

/-- The chunks that a buffer consists of. What is left over at its end is no chunk. -/
def chunksExact (g : Geometry) (data : Array UInt64) : List (Tile g.side) :=
  (List.finRange (data.size / g.ringDim)).map fun l : Fin (data.size / g.ringDim) =>
    tileAt data l.val fun _ hk => chunk_word_lt l.isLt hk

/-- Replaces tiles one after the other, as many as there are to take their places. -/
def copyChunks (chunks : List (Tile g.side)) (bank : Bank g) : Bank g :=
  (chunks.zip (List.finRange g.capacity)).foldl (fun bank p => bank.set p.2.val p.1 p.2.isLt) bank

/-- Copies the words of a tile over those of a channel of a buffer. -/
def copyTile (data : Array UInt64) (channel : ℕ) (tile : Tile g.side) : Array UInt64 :=
  Fin.foldl (g.side * g.side) (fun data k =>
    data.modify (channel * g.ringDim + k.val) fun _ => tile.words.get k) data

/-- Copies tiles over the channels of a buffer one after the other. -/
def copyTiles (channels : List ℕ) (tiles : List (Tile g.side)) (data : Array UInt64) :
    Array UInt64 :=
  (channels.zip tiles).foldl (fun data p => copyTile data p.1 p.2) data

/-- Copies the chunks of the leading words of a buffer over the tiles of a bank. -/
def loadInPlace (source : Array UInt64) (count : ℕ) : ExceptT Fault (StateM (Bank g)) Unit := do
  liftExcept (checkFits g .transferSource count source.size)
  modify (copyChunks (chunksExact g (source.extract 0 (g.words count))))

/-- Copies the tiles of a bank over the chunks of the leading words of a buffer. -/
def storeInPlace (bank : Bank g) (count : ℕ) : ExceptT Fault (StateM (Array UInt64)) Unit := do
  liftExcept (checkFits g .transferTarget count (← get).size)
  modify (copyTiles (List.range (g.words count / g.ringDim)) bank.toList)

/-! ### Loading -/

/-- The check finds what the transfer is refused for. -/
theorem checkFits_eq (g : Geometry) (role : Role) (count size : ℕ) :
    checkFits g role count size =
      if Fits g count size then .ok () else .error (refusal g role count size) := by
  rw [checkFits, refusal]
  split
  · next h => rw [if_neg fun hfits => Nat.not_le.2 h hfits.1]
  · next h =>
    split
    · next hsize => rw [if_neg fun hfits => Nat.not_le.2 hsize hfits.2]
    · next hsize => exact (if_pos ⟨Nat.le_of_not_lt h, Nat.le_of_not_lt hsize⟩).symm

/-- The leading words of so many channels are as many chunks. -/
theorem words_div (g : Geometry) (count : ℕ) : g.words count / g.ringDim = count :=
  Nat.mul_div_cancel count g.ringDim_pos

/-- The leading words of a buffer have its leading channels. -/
theorem chunk_extract {source : Array UInt64} (hsize : g.words count ≤ source.size) {l : ℕ}
    (hl : l < count) : chunk g (source.extract 0 (g.words count)) l = chunk g source l := by
  refine congrArg Tile.mk (Vector.ext fun k hk => ?_)
  have hlt : l * g.ringDim + k < min (g.words count) source.size :=
    Nat.lt_min.2 ⟨address_lt hl hk, Nat.lt_of_lt_of_le (address_lt hl hk) hsize⟩
  rw [Vector.getElem_ofFn, Vector.getElem_ofFn, Array.getD_eq_getD_getElem?,
    Array.getD_eq_getD_getElem?, Array.getElem?_extract, Nat.sub_zero, if_pos hlt, Nat.zero_add]

/-- These channels are its chunks. -/
theorem chunksExact_extract {source : Array UInt64} (hsize : g.words count ≤ source.size) :
    chunksExact g (source.extract 0 (g.words count)) =
      (List.finRange count).map fun l => chunk g source l.val := by
  have hwords : (source.extract 0 (g.words count)).size / g.ringDim = count := by
    rw [Array.size_extract, Nat.min_eq_left hsize, Nat.sub_zero, words_div]
  have hlength : (chunksExact g (source.extract 0 (g.words count))).length =
      ((List.finRange count).map fun l => chunk g source l.val).length := by
    simp only [chunksExact, List.length_map, List.length_finRange, hwords]
  refine List.ext_getElem hlength fun l hl hl' => ?_
  have hcount : l < count := by simpa using hl'
  simp only [chunksExact, List.getElem_map, List.getElem_finRange, tileAt_eq_chunk]
  exact chunk_extract hsize hcount

/-- Loading in place is loading, and a transfer that is refused leaves the bank alone. -/
theorem loadInPlace_eq (source : Array UInt64) (count : ℕ) (bank : Bank g) :
    loadInPlace source count bank =
      match load source bank count with
      | .ok filled => (.ok (), filled)
      | .error fault => (.error fault, bank) := by
  by_cases h : Fits g count source.size
  · obtain ⟨filled, hload, htiles⟩ := load_spec bank h
    rw [hload, loadInPlace, checkFits_eq, if_pos h, chunksExact_extract h.2]
    refine congrArg (Prod.mk (Except.ok ())) (Vector.ext fun l hl => ?_)
    have hwalk := get_foldl_set h.1 (fun i (_ : Tile g.side) => chunk g source i.val) bank ⟨l, hl⟩
    have hroom : count ≤ (List.finRange g.capacity).length := List.length_finRange.symm ▸ h.1
    have hlength : count = ((List.finRange count).map fun l => chunk g source l.val).length := by
      rw [List.length_map, List.length_finRange]
    rw [htiles l hl]
    change getElem (copyChunks _ bank) l hl = _
    rw [copyChunks, foldl_zip _ hlength.le hroom (.inl hlength)]
    simp only [List.get_eq_getElem, List.getElem_map, List.getElem_finRange]
    exact hwalk
  · rw [load, dif_neg h, loadInPlace, checkFits_eq, if_neg h]
    rfl

/-! ### Storing -/

/-- A copied tile takes the places of the words of its channel, and no others. -/
theorem getElem?_copyTile (data : Array UInt64) (l : ℕ) (tile : Tile g.side) (i : ℕ) :
    (copyTile data l tile)[i]? =
      if i / g.ringDim = l then data[i]?.map fun _ => tile.words.toArray.getD (i % g.ringDim) 0
      else data[i]? := by
  -- so many words of the channel have been written, the others are those of before
  have hall := foldl_carries
    (fun m (written : Array UInt64) => ∀ i : ℕ, written[i]? =
      if i / g.ringDim = l ∧ i % g.ringDim < m then
        data[i]?.map fun _ => tile.words.toArray.getD (i % g.ringDim) 0
      else data[i]?)
    (fun written (k : Fin (g.side * g.side)) =>
      written.modify (l * g.ringDim + k.val) fun _ => tile.words.get k)
    (s := data) (fun i => by simp) fun k written hwritten i => ?_
  · have hmod : i % g.ringDim < g.side * g.side := Nat.mod_lt _ g.ringDim_pos
    rw [copyTile, hall i]
    simp only [hmod, and_true]
  · have hk : k.val < g.ringDim := k.isLt
    have hdiv := address_div l hk
    have hmod := address_mod l hk
    have hword : tile.words.toArray.getD k.val 0 = tile.words.get k := by
      simp only [Array.getD_eq_getD_getElem?, Vector.getElem?_toArray,
        Vector.getElem?_eq_getElem k.isLt]
      rfl
    rw [Array.getElem?_modify]
    split
    · next hi =>
      subst hi
      rw [hwritten, hdiv, hmod, if_neg fun h => Nat.lt_irrefl _ h.2,
        if_pos ⟨rfl, Nat.lt_succ_self _⟩, hword]
    · next hi =>
      have hiff : i / g.ringDim = l ∧ i % g.ringDim < k.val + 1 ↔
          i / g.ringDim = l ∧ i % g.ringDim < k.val := by
        refine and_congr_right fun hl => ⟨fun hlt => ?_, fun hlt => Nat.lt_succ_of_lt hlt⟩
        refine Nat.lt_of_le_of_ne (Nat.le_of_lt_succ hlt) fun heq => hi ?_
        rw [← hl, ← heq, Nat.div_add_mod']
      rw [hwritten i]
      simp only [hiff]

/-- A buffer keeps its size. -/
theorem size_copyTile (data : Array UInt64) (l : ℕ) (tile : Tile g.side) :
    (copyTile data l tile).size = data.size :=
  foldl_carries (fun _ (written : Array UInt64) => written.size = data.size) _ rfl
    fun _ _ hwritten => Array.size_modify.trans hwritten

/-- The channel of a copied tile holds it. -/
theorem chunk_copyTile_self {data : Array UInt64} {l : ℕ} (tile : Tile g.side)
    (hsize : g.words (l + 1) ≤ data.size) : chunk g (copyTile data l tile) l = tile := by
  refine congrArg Tile.mk (Vector.ext fun k hk => ?_)
  have hk' : k < g.ringDim := hk
  have hlt : l * g.ringDim + k < data.size :=
    Nat.lt_of_lt_of_le (address_lt (Nat.lt_succ_self l) hk') hsize
  rw [Vector.getElem_ofFn, Array.getD_eq_getD_getElem?, getElem?_copyTile,
    if_pos (address_div l hk'), Array.getElem?_eq_getElem hlt, Option.map_some, Option.getD_some,
    address_mod l hk', Array.getD_eq_getD_getElem?, Vector.getElem?_toArray,
    Vector.getElem?_eq_getElem hk, Option.getD_some]

/-- Every other channel is kept. -/
theorem chunk_copyTile_of_ne (data : Array UInt64) {l l' : ℕ} (tile : Tile g.side) (h : l' ≠ l) :
    chunk g (copyTile data l tile) l' = chunk g data l' := by
  refine congrArg Tile.mk (Vector.ext fun k hk => ?_)
  have hne : (l' * g.ringDim + k) / g.ringDim ≠ l := (address_div l' hk).symm ▸ h
  rw [Vector.getElem_ofFn, Vector.getElem_ofFn, Array.getD_eq_getD_getElem?, getElem?_copyTile,
    if_neg hne, Array.getD_eq_getD_getElem?]

/-- Behind rewritten channels, a copied tile rewrites one more. -/
theorem Rewrites.succ {m : ℕ} {tile : (l : ℕ) → l < m + 1 → Tile g.side}
    {before after : Array UInt64}
    (h : Rewrites g m (fun l hl => tile l (Nat.lt_succ_of_lt hl)) before after)
    (hsize : g.words (m + 1) ≤ before.size) :
    Rewrites g (m + 1) tile before (copyTile after m (tile m (Nat.lt_succ_self m))) where
  size_eq := (size_copyTile ..).trans h.size_eq
  chunk_eq l hl := by
    by_cases heq : l = m
    · subst heq
      exact chunk_copyTile_self _ (hsize.trans_eq h.size_eq.symm)
    · rw [chunk_copyTile_of_ne _ _ heq]
      exact h.chunk_eq l (Nat.lt_of_le_of_ne (Nat.le_of_lt_succ hl) heq)
  tail_eq i hi := by
    have hdiv : m + 1 ≤ i / g.ringDim := (Nat.le_div_iff_mul_le g.ringDim_pos).2 hi
    have hlow : g.words m ≤ i := Nat.le_trans (Nat.mul_le_mul_right _ (Nat.le_succ m)) hi
    rw [getElem?_copyTile, if_neg (Nat.ne_of_gt hdiv), h.tail_eq i hlow]

/-- Copying tiles side by side with channels rewrites the leading channels. -/
theorem rewrites_copyTiles {target : Array UInt64} (bank : Bank g)
    (h : Fits g count target.size) :
    Rewrites g count (fun l hl => getElem bank l (Nat.lt_of_lt_of_le hl h.1)) target
      (copyTiles (List.range count) bank.toList target) := by
  have hlength : bank.toList.length = g.capacity := Vector.length_toList
  rw [copyTiles, foldl_zip _ List.length_range.ge (h.1.trans_eq hlength.symm)
    (.inl List.length_range.symm)]
  simp only [List.get_eq_getElem, List.getElem_range, Vector.getElem_toList]
  -- every tile rewrites the channel behind those of the tiles before
  refine foldl_carries (fun m after => ∀ hm : m ≤ count, Rewrites g m (fun l hl =>
      getElem bank l (Nat.lt_of_lt_of_le (Nat.lt_of_lt_of_le hl hm) h.1)) target after) _
    (fun _ => ⟨rfl, fun l hl => absurd hl (Nat.not_lt_zero l), fun _ _ => rfl⟩)
    (fun l after hafter hm => ?_) (Nat.le_refl count)
  have hsize : g.words (l.val + 1) ≤ target.size :=
    Nat.le_trans (Nat.mul_le_mul_right _ hm) h.2
  exact (hafter (Nat.le_of_lt hm)).succ hsize

/-- Storing in place is storing, and a transfer that is refused leaves the buffer alone. -/
theorem storeInPlace_eq (bank : Bank g) (count : ℕ) (target : Array UInt64) :
    storeInPlace bank count target =
      match store bank target count with
      | .ok written => (.ok (), written)
      | .error fault => (.error fault, target) := by
  have hget : storeInPlace bank count target = (do
      liftExcept (checkFits g .transferTarget count target.size)
      modify (copyTiles (List.range (g.words count / g.ringDim)) bank.toList) :
        ExceptT Fault (StateM (Array UInt64)) Unit) target := rfl
  by_cases h : Fits g count target.size
  · obtain ⟨written, hstore, hwritten⟩ := store_spec bank h
    rw [hstore, hget, checkFits_eq, if_pos h, words_div]
    exact congrArg (Prod.mk (Except.ok ())) ((rewrites_copyTiles bank h).unique hwritten)
  · rw [store, dif_neg h, hget, checkFits_eq, if_neg h]
    rfl

/-! ### One layout -/

/-- The leading tiles of a bank show the words of a buffer: an entry is the word at its address. -/
def Shows (bank : Bank g) (data : Array UInt64) (count : ℕ) : Prop :=
  ∀ l : Fin g.capacity, l.val < count → ∀ i j : Fin g.side,
    data[address g l i j]? = some ((bank.get l).get i j)

/-- Tiles that are the channels of a buffer show its words. -/
theorem shows_of_chunk {bank : Bank g} {data : Array UInt64} (hsize : g.words count ≤ data.size)
    (h : ∀ l : Fin g.capacity, l.val < count → bank.get l = chunk g data l) :
    Shows bank data count := by
  intro l hl i j
  have hlt : l.val * g.ringDim + (Tile.index i j).val < data.size :=
    Nat.lt_of_lt_of_le (address_lt hl (Tile.index i j).isLt) hsize
  have hword : (bank.get l).get i j = (chunk g data l).words.get (Tile.index i j) := by
    rw [h l hl]
    rfl
  rw [hword, words_chunk, address_eq, Array.getElem?_eq_getElem hlt, Array.getD_eq_getD_getElem?,
    Array.getElem?_eq_getElem hlt, Option.getD_some]

/-- Buffers whose words the same tiles show have the same leading words. -/
theorem Shows.getElem?_eq {bank : Bank g} {data data' : Array UInt64} (h : Shows bank data count)
    (h' : Shows bank data' count) (hcount : count ≤ g.capacity) {k : ℕ}
    (hk : k < count * g.ringDim) : data[k]? = data'[k]? := by
  obtain ⟨⟨l, i, j⟩, ⟨hl, hi, hj⟩, rfl⟩ := (address_bijOn g count).surjOn hk
  have hword := h ⟨l, Nat.lt_of_lt_of_le hl hcount⟩ hl ⟨i, hi⟩ ⟨j, hj⟩
  exact hword.trans (h' ⟨l, Nat.lt_of_lt_of_le hl hcount⟩ hl ⟨i, hi⟩ ⟨j, hj⟩).symm

/-- Banks that show the same words have the same leading tiles. -/
theorem Shows.get_eq {bank bank' : Bank g} {data : Array UInt64} (h : Shows bank data count)
    (h' : Shows bank' data count) {l : Fin g.capacity} (hl : l.val < count) :
    bank.get l = bank'.get l :=
  Tile.ext_get fun i j => Option.some.inj ((h l hl i j).symm.trans (h' l hl i j))

/-- A bank into which a buffer was loaded shows its words, and keeps its other tiles. -/
theorem shows_of_load {bank filled : Bank g} {source : Array UInt64}
    (h : load source bank count = .ok filled) :
    Fits g count source.size ∧ Shows filled source count ∧
      ∀ l : Fin g.capacity, count ≤ l.val → filled.get l = bank.get l := by
  by_cases hfits : Fits g count source.size
  · obtain ⟨filled', hload, htiles⟩ := load_spec bank hfits
    obtain rfl := Except.ok.inj (h.symm.trans hload)
    refine ⟨hfits, shows_of_chunk hfits.2 fun l hl => ?_, fun l hl => ?_⟩
    · exact (htiles l l.isLt).trans (if_pos hl)
    · exact (htiles l l.isLt).trans (if_neg (Nat.not_lt.2 hl))
  · rw [load, dif_neg hfits] at h
    cases h

/-- A buffer into which a bank was stored has the words that its tiles show, and keeps its others.
-/
theorem shows_of_store {bank : Bank g} {target written : Array UInt64}
    (h : store bank target count = .ok written) :
    Fits g count target.size ∧ Shows bank written count ∧ written.size = target.size ∧
      ∀ k, count * g.ringDim ≤ k → written[k]? = target[k]? := by
  by_cases hfits : Fits g count target.size
  · obtain ⟨written', hstore, hwritten⟩ := store_spec bank hfits
    obtain rfl := Except.ok.inj (h.symm.trans hstore)
    refine ⟨hfits, shows_of_chunk (hfits.2.trans_eq hwritten.size_eq.symm) fun l hl => ?_,
      hwritten.size_eq, hwritten.tail_eq⟩
    exact (hwritten.chunk_eq l hl).symm
  · rw [store, dif_neg hfits] at h
    cases h

/-- Loading what was stored leaves the bank as it is. -/
theorem load_of_store {bank : Bank g} {target written : Array UInt64}
    (h : store bank target count = .ok written) : load written bank count = .ok bank := by
  obtain ⟨hfits, hshows, hsize, -⟩ := shows_of_store h
  obtain ⟨filled, hload, -⟩ := load_spec bank (hsize.symm ▸ hfits : Fits g count written.size)
  obtain ⟨-, hfilled, hkept⟩ := shows_of_load hload
  rw [hload]
  refine congrArg Except.ok (Vector.ext fun l hl => ?_)
  by_cases hactive : l < count
  · exact hfilled.get_eq hshows (l := ⟨l, hl⟩) hactive
  · exact hkept ⟨l, hl⟩ (Nat.le_of_not_lt hactive)

/-- Storing what was loaded writes the leading words of the buffer that it was loaded from. -/
theorem store_of_load {bank filled : Bank g} {source target : Array UInt64}
    (h : load source bank count = .ok filled) (hroom : count * g.ringDim ≤ target.size) :
    ∃ written, store filled target count = .ok written ∧
      ∀ k, k < count * g.ringDim → written[k]? = source[k]? := by
  obtain ⟨hfits, hshows, -⟩ := shows_of_load h
  obtain ⟨written, hstore, -⟩ := store_spec filled (⟨hfits.1, hroom⟩ : Fits g count target.size)
  obtain ⟨-, hwritten, -⟩ := shows_of_store hstore
  exact ⟨written, hstore, fun k hk => hwritten.getElem?_eq hshows hfits.1 hk⟩

/-- **Transfers.** Loading and storing so many channels take place exactly when the bank has the
tiles and the buffer the words, and change nothing otherwise. What is copied follows the addresses
of the entries, which are the leading places of the buffer, each once, and which words do not
exceed as long as those of all tiles do not. The other tiles of a loaded bank and the other words of
a stored buffer are kept. What was loaded is stored as it was, and what was stored is loaded as it
was. -/
theorem transfer_outcome (g : Geometry) (count : ℕ) (bank : Bank g) (data : Array UInt64) :
    let loading : Except Fault Unit × Bank g := loadInPlace data count bank
    let storing : Except Fault Unit × Array UInt64 := storeInPlace bank count data
    (loading.1 = .ok () ↔ count ≤ g.capacity ∧ count * g.ringDim ≤ data.size) ∧
    (storing.1 = .ok () ↔ count ≤ g.capacity ∧ count * g.ringDim ≤ data.size) ∧
    (∀ fault, loading.1 = .error fault →
      fault = refusal g .transferSource count data.size ∧ loading.2 = bank) ∧
    (∀ fault, storing.1 = .error fault →
      fault = refusal g .transferTarget count data.size ∧ storing.2 = data) ∧
    (loading.1 = .ok () → Shows loading.2 data count ∧
      ∀ l : Fin g.capacity, count ≤ l.val → loading.2.get l = bank.get l) ∧
    (storing.1 = .ok () → Shows bank storing.2 count ∧ storing.2.size = data.size ∧
      ∀ k, count * g.ringDim ≤ k → storing.2[k]? = data[k]?) ∧
    Set.BijOn (fun p => address g p.1 p.2.1 p.2.2) (places g count)
      (Set.Iio (count * g.ringDim)) ∧
    (g.capacity * g.ringDim < 2 ^ 64 → ∀ p ∈ places g g.capacity,
      (addressWord g p.1 p.2.1 p.2.2).toNat = address g p.1 p.2.1 p.2.2) ∧
    (loading.1 = .ok () → ∀ target : Array UInt64, count * g.ringDim ≤ target.size →
      let restored : Except Fault Unit × Array UInt64 := storeInPlace loading.2 count target
      restored.1 = .ok () ∧ ∀ k, k < count * g.ringDim → restored.2[k]? = data[k]?) ∧
    (storing.1 = .ok () → loadInPlace storing.2 count bank = (.ok (), bank)) ∧
    load data bank count = loading.1.map (fun _ => loading.2) ∧
    store bank data count = storing.1.map fun _ => storing.2 := by
  intro loading storing
  have hloading : loading = _ := loadInPlace_eq data count bank
  have hstoring : storing = _ := storeInPlace_eq bank count data
  have hword : g.capacity * g.ringDim < 2 ^ 64 → ∀ p ∈ places g g.capacity,
      (addressWord g p.1 p.2.1 p.2.2).toNat = address g p.1 p.2.1 p.2.2 := fun hsize p hp =>
    toNat_addressWord (Nat.lt_trans ((address_bijOn g g.capacity).mapsTo hp) hsize)
  by_cases hfits : Fits g count data.size
  · obtain ⟨filled, hload, -⟩ := load_spec bank hfits
    obtain ⟨written, hstore, -⟩ := store_spec bank hfits
    obtain ⟨-, hloaded⟩ := shows_of_load hload
    obtain ⟨-, hstored⟩ := shows_of_store hstore
    rw [hload] at hloading
    rw [hstore] at hstoring
    rw [hloading, hstoring, hload, hstore]
    refine ⟨iff_of_true rfl hfits, iff_of_true rfl hfits, nofun, nofun, fun _ => hloaded,
      fun _ => hstored, address_bijOn g count, hword, fun _ target hroom => ?_, fun _ => ?_, rfl,
      rfl⟩
    · obtain ⟨restored, hrestored, hsame⟩ := store_of_load hload hroom
      rw [storeInPlace_eq, hrestored]
      exact ⟨rfl, hsame⟩
    · rw [loadInPlace_eq, load_of_store hstore]
  · have hload : load data bank count = .error (refusal g .transferSource count data.size) :=
      dif_neg hfits
    have hstore : store bank data count = .error (refusal g .transferTarget count data.size) :=
      dif_neg hfits
    rw [hload] at hloading
    rw [hstore] at hstoring
    rw [hloading, hstoring, hload, hstore]
    exact ⟨iff_of_false nofun hfits, iff_of_false nofun hfits,
      fun _ h => ⟨(Except.error.inj h).symm, rfl⟩, fun _ h => ⟨(Except.error.inj h).symm, rfl⟩,
      nofun, nofun, address_bijOn g count, hword, nofun, nofun, rfl, rfl⟩

end Transfer

end RnsEngine
