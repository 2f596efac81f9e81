import RnsEngine.Proofs.Engine.Atomicity

/-!
# Channel by channel

The channels of an invocation share the banks and the datapath, and are matched to moduli, tables
and words by their index alone. They have nothing else in common: a combination or a transform of a
window does in each channel what the same operation does on the words of that channel alone
(`Engine.channels_independent`), whenever that is done, and whatever the other channels hold.

An operation of this kind, without its window, is a `Channelwise`. It is accepted when its inputs
are operands of the window and its buffer has room (`Window.Fits.Accepts`); that goes over to each
of its channels (`Window.Fits.Accepts.channel`), with the same result.
-/

namespace RnsEngine

/-! ### Words of a channel -/

namespace Transfer

variable {g : Geometry}

/-- The words of a channel, as a buffer of their own. -/
def channelWords (g : Geometry) (data : Array UInt64) (channel : ℕ) : Array UInt64 :=
  data.extract (channel * g.ringDim) ((channel + 1) * g.ringDim)

/-- A word of a channel is a word of the buffer. -/
theorem getElem?_channelWords (data : Array UInt64) (l : ℕ) {k : ℕ} (hk : k < g.ringDim) :
    (channelWords g data l)[k]? = data[l * g.ringDim + k]? := by
  rw [channelWords, Array.getElem?_extract]
  split
  · rfl
  · rename_i hout
    rw [Nat.succ_mul] at hout
    exact (Array.getElem?_eq_none (by omega)).symm

/-- A channel that lies inside a buffer has all its words. -/
theorem size_channelWords {data : Array UInt64} {count l : ℕ} (hl : l < count)
    (hdata : g.words count ≤ data.size) : (channelWords g data l).size = g.ringDim := by
  have hle : (l + 1) * g.ringDim ≤ data.size := Nat.le_trans (Nat.mul_le_mul_right _ hl) hdata
  rw [channelWords, Array.size_extract, Nat.min_eq_left hle, Nat.succ_mul, Nat.add_sub_cancel_left]

/-- The only channel of a buffer with the words of a channel is that channel. -/
@[simp] theorem chunk_channelWords (data : Array UInt64) (l : ℕ) :
    chunk g (channelWords g data l) 0 = chunk g data l := by
  refine congrArg Tile.mk (Vector.ext fun k hk => ?_)
  rw [Vector.getElem_ofFn, Vector.getElem_ofFn, Array.getD_eq_getD_getElem?,
    Array.getD_eq_getD_getElem?, Nat.zero_mul, Nat.zero_add, getElem?_channelWords data l hk]

/-- Buffers of one channel are equal when that channel is. -/
theorem eq_of_chunk_zero {data data' : Array UInt64} (hsize : data.size = g.ringDim)
    (hsize' : data'.size = g.ringDim) (h : chunk g data 0 = chunk g data' 0) : data = data' := by
  refine ext_chunk g 1 (hsize.trans hsize'.symm) (fun l hl => ?_) fun i hi => ?_
  · obtain rfl := Nat.lt_one_iff.1 hl
    exact h
  · rw [Geometry.words, Nat.one_mul] at hi
    rw [Array.getElem?_eq_none (hsize.trans_le hi), Array.getElem?_eq_none (hsize'.trans_le hi)]

/-- The leading words of a buffer are those of its leading channels. -/
theorem toList_take_words {data : Array UInt64} {count : ℕ} (hdata : g.words count ≤ data.size) :
    data.toList.take (g.words count) =
      (List.range count).flatMap fun l => (channelWords g data l).toList := by
  induction count with
  | zero => rw [Geometry.words, Nat.zero_mul, List.take_zero, List.range_zero, List.flatMap_nil]
  | succ count ih =>
    have hwords : g.words (count + 1) = g.words count + g.ringDim := Nat.succ_mul _ _
    rw [List.range_succ, List.flatMap_append, ← ih (by omega), hwords, List.take_add,
      List.flatMap_singleton]
    congr 1
    rw [channelWords, Array.toList_extract, Nat.succ_mul, List.extract_eq_take_drop,
      Nat.add_sub_cancel_left]
    rfl

end Transfer

/-! ### Operations without a window -/

/-- An operation that works channel by channel, with the buffers that it reads and writes. -/
inductive Channelwise where
  | combine (op : PointwiseOp) (left right target : Array UInt64)
  | transform (direction : Direction) (data : Array UInt64)

namespace Channelwise

/-- The operation on the channels of a window. -/
def on (w : Window) : Channelwise → Invocation
  | combine op left right target => .combine op left right target w
  | transform direction data => .transform direction data w

/-- The buffer that is written to. -/
def buffer : Channelwise → Array UInt64
  | combine _ _ _ target => target
  | transform _ data => data

/-- The operation on buffers cut down to the words of one channel. -/
def channel (g : Geometry) (l : ℕ) : Channelwise → Channelwise
  | combine op left right target =>
    combine op (Transfer.channelWords g left l) (Transfer.channelWords g right l)
      (Transfer.channelWords g target l)
  | transform direction data => transform direction (Transfer.channelWords g data l)

/-- What the operation makes of a channel of its inputs. -/
def result {g : Geometry} (e : TabledChannel g) (l : ℕ) : Channelwise → Tile g.side
  | combine op left right _ => Tile.zipWith (op.apply e.channel) (Transfer.chunk g left l)
      (Transfer.chunk g right l)
  | transform direction data => e.image direction (Transfer.chunk g data l)

/-- Operations of one kind that have the same words of input, the one in channel `l`, the other in
channel `l'`. Nothing is asked of the other channels, and nothing of a buffer that is only written
to. -/
inductive Agree (g : Geometry) (l l' : ℕ) : Channelwise → Channelwise → Prop
  | combine {op : PointwiseOp} {left right target left' right' target' : Array UInt64}
      (hleft : Transfer.channelWords g left l = Transfer.channelWords g left' l')
      (hright : Transfer.channelWords g right l = Transfer.channelWords g right' l') :
      Agree g l l' (.combine op left right target) (.combine op left' right' target')
  | transform {direction : Direction} {data data' : Array UInt64}
      (hdata : Transfer.channelWords g data l = Transfer.channelWords g data' l') :
      Agree g l l' (.transform direction data) (.transform direction data')

variable {g : Geometry} {k k' : Channelwise} {l l' : ℕ}

/-- The buffer of one channel is the words of that channel. -/
theorem buffer_channel (k : Channelwise) (l : ℕ) :
    (k.channel g l).buffer = Transfer.channelWords g k.buffer l := by
  cases k <;> rfl

/-- On the words of a channel the operation has the result of that channel. -/
theorem result_channel (e : TabledChannel g) (k : Channelwise) (l : ℕ) :
    (k.channel g l).result e 0 = k.result e l := by
  cases k <;> simp only [channel, result, Transfer.chunk_channelWords]

/-- Where operations agree they have the same result. -/
theorem Agree.result_eq (h : k.Agree g l l' k') (e : TabledChannel g) :
    k.result e l = k'.result e l' := by
  cases h with
  | combine hleft hright =>
    simp only [result]
    rw [← Transfer.chunk_channelWords _ l, ← Transfer.chunk_channelWords (g := g) _ l, hleft,
      hright, Transfer.chunk_channelWords, Transfer.chunk_channelWords]
  | transform hdata =>
    simp only [result]
    rw [← Transfer.chunk_channelWords _ l, hdata, Transfer.chunk_channelWords]

end Channelwise

/-! ### Windows of one channel -/

/-- The window of the first tile, in the channel of an index. -/
def Window.single (index : ℕ) : Window := { count := 1, offset := index }

namespace Window.Fits

variable {b : Basis} {w : Window}

/-- A channel of a window that fits is a window that fits. -/
theorem single (h : w.Fits b) {l : ℕ} (hl : l < w.count) :
    (Window.single (w.offset + l)).Fits b where
  count_le := Nat.le_trans (Nat.one_le_of_lt hl) h.count_le
  stop_le := Nat.le_trans (Nat.add_le_add_left hl w.offset) h.stop_le

/-- The channel of such a window is that of the tile in the larger one. -/
theorem entry_single (h : w.Fits b) {l : ℕ} (hl : l < w.count) :
    (h.single hl).entry 0 Nat.one_pos = h.entry l hl := rfl

/-- A window accepts an operation when the inputs are operands and the buffer has room. -/
def Accepts (h : w.Fits b) : Channelwise → Prop
  | .combine _ left right target =>
    h.Operand left ∧ h.Operand right ∧ b.geometry.words w.count ≤ target.size
  | .transform _ data => h.Operand data

/-- A channel of an operand is an operand of that channel. -/
theorem Operand.channel {h : w.Fits b} {data : Array UInt64} (hdata : h.Operand data) {l : ℕ}
    (hl : l < w.count) : (h.single hl).Operand (Transfer.channelWords b.geometry data l) where
  words_le := by
    rw [Transfer.size_channelWords hl hdata.words_le]
    exact (Nat.one_mul _).le
  reduced l' hl' := by
    obtain rfl := Nat.lt_one_iff.1 hl'
    rw [Transfer.chunk_channelWords, entry_single h hl]
    exact hdata.reduced l hl

/-- The buffer of an accepted operation has room. -/
theorem Accepts.words_le {h : w.Fits b} {k : Channelwise} (hk : h.Accepts k) :
    b.geometry.words w.count ≤ k.buffer.size := by
  cases k with
  | combine op left right target => exact hk.2.2
  | transform d data => exact Operand.words_le hk

/-- An accepted operation is accepted on each of its channels. -/
theorem Accepts.channel {h : w.Fits b} {k : Channelwise} (hk : h.Accepts k) {l : ℕ}
    (hl : l < w.count) : (h.single hl).Accepts (k.channel b.geometry l) := by
  cases k with
  | combine op left right target =>
    obtain ⟨hleft, hright, hroom⟩ := hk
    refine ⟨hleft.channel hl, hright.channel hl, ?_⟩
    rw [Transfer.size_channelWords hl hroom]
    exact (Nat.one_mul _).le
  | transform d data => exact Operand.channel hk hl

end Window.Fits

namespace Engine

/-! ### Acceptance -/

/-- What succeeds was accepted. -/
theorem accepts_of_outcome {g : Geometry} {b : Basis} {e : Engine g} (he : e.Runs b)
    {k : Channelwise} {w : Window} (hok : (e.execute (k.on w)).outcome = .ok none) :
    b.geometry = g ∧ ∃ h : w.Fits b, h.Accepts k := by
  cases hverdict : (k.on w).verdict (Session.view ⟨e, (k.on w).target⟩) with
  | error fault => exact nomatch hok.symm.trans (Invocation.action_of_refused hverdict).1
  | ok p =>
    cases k with
    | combine op left right target =>
      obtain ⟨b', rfl⟩ := p
      obtain ⟨hinstalled, ⟨h, hleft, hright⟩, hroom⟩ :=
        Invocation.verdict_combine_eq_ok_iff.1 hverdict
      obtain rfl : b = b' := Option.some.inj (he.symm.trans (runs_iff.2 hinstalled))
      exact ⟨rfl, h, hleft, hright, hroom⟩
    | transform d data =>
      obtain ⟨b', rfl⟩ := p
      obtain ⟨hinstalled, h, hdata⟩ := Invocation.verdict_transform_eq_ok_iff.1 hverdict
      obtain rfl : b = b' := Option.some.inj (he.symm.trans (runs_iff.2 hinstalled))
      exact ⟨rfl, h, hdata⟩

/-- What was accepted succeeds, keeps the basis, and rewrites the buffer with the results of its
channels. -/
theorem execute_accepted {b : Basis} {e : Engine b.geometry} (he : e.Runs b) {k : Channelwise}
    {w : Window} {h : w.Fits b} (hk : h.Accepts k) :
    let reply := e.execute (k.on w)
    reply.outcome = .ok none ∧ reply.engine.Runs b ∧
      Transfer.Rewrites b.geometry w.count (fun l hl => k.result (h.entry l hl) l) k.buffer
        reply.buffer := by
  cases k with
  | combine op left right target =>
    obtain ⟨hleft, hright, hroom⟩ := hk
    obtain ⟨houtcome, hinstalled, hrewrites⟩ :=
      execute_combine h (runs_iff.1 he) hleft hright hroom op
    exact ⟨houtcome, runs_iff.2 hinstalled, hrewrites⟩
  | transform d data =>
    obtain ⟨houtcome, hinstalled, hrewrites⟩ := execute_transform h (runs_iff.1 he) hk d
    exact ⟨houtcome, runs_iff.2 hinstalled, hrewrites⟩

/-- A channel of an accepted operation succeeds alone, on any engine that runs the basis, and leaves
the words of that channel as the operation on the whole window does. -/
theorem execute_channel {b : Basis} {e : Engine b.geometry} (he : e.Runs b) {k : Channelwise}
    {w : Window} {h : w.Fits b} (hk : h.Accepts k) {e' : Engine b.geometry} (he' : e'.Runs b)
    {l : ℕ} (hl : l < w.count) :
    let reply := e'.execute ((k.channel b.geometry l).on (.single (w.offset + l)))
    reply.outcome = .ok none ∧ reply.engine.Runs b ∧
      reply.buffer = Transfer.channelWords b.geometry (e.execute (k.on w)).buffer l := by
  obtain ⟨-, -, hwhole⟩ := execute_accepted he hk
  obtain ⟨houtcome, hruns, hpart⟩ := execute_accepted he' (hk.channel hl)
  have hroom : b.geometry.words w.count ≤ (e.execute (k.on w)).buffer.size :=
    hk.words_le.trans_eq hwhole.size_eq.symm
  have hsize : (k.channel b.geometry l).buffer.size = b.geometry.ringDim := by
    rw [k.buffer_channel, Transfer.size_channelWords hl hk.words_le]
  refine ⟨houtcome, hruns, Transfer.eq_of_chunk_zero (hpart.size_eq.trans hsize)
    (Transfer.size_channelWords hl hroom) ?_⟩
  rw [hpart.chunk_eq 0 Nat.one_pos, Transfer.chunk_channelWords, hwhole.chunk_eq l hl,
    h.entry_single hl, k.result_channel]

/-- The channels of an accepted operation succeed one after the other, in any order, and each of
them leaves the words of that channel. -/
theorem executeAll_channels {b : Basis} {e : Engine b.geometry} (he : e.Runs b) {k : Channelwise}
    {w : Window} {h : w.Fits b} (hk : h.Accepts k) (order : List ℕ) :
    ∀ {e' : Engine b.geometry}, e'.Runs b → (∀ l ∈ order, l < w.count) →
      (e'.executeAll (order.map fun l => (k.channel b.geometry l).on (.single (w.offset + l)))).map
          (fun reply => (reply.outcome, reply.buffer)) =
        order.map fun l =>
          (.ok none, Transfer.channelWords b.geometry (e.execute (k.on w)).buffer l) := by
  induction order with
  | nil => exact fun _ _ => rfl
  | cons l order ih =>
    intro e' he' hmem
    obtain ⟨hl, hrest⟩ := List.forall_mem_cons.1 hmem
    obtain ⟨houtcome, hruns, hbuffer⟩ := execute_channel he hk he' hl
    rw [List.map_cons, executeAll, List.map_cons, ih hruns hrest, houtcome, hbuffer, List.map_cons]

end Engine

/-! ### Independence -/

/-- The modulus of an index and its two tables. -/
def Basis.constants (b : Basis) (index : ℕ) : Option (Channel × Table × Table) :=
  b.entries[index]?.map fun e => (e.channel, e.forward, e.inverse)

/-- The constants of an active tile are those with its index. -/
theorem Window.Fits.constants_entry {b : Basis} {w : Window} (h : w.Fits b) {l : ℕ}
    (hl : l < w.count) : b.constants (w.offset + l) =
      some ((h.entry l hl).channel, (h.entry l hl).forward, (h.entry l hl).inverse) := by
  have hentry : b.entries[w.offset + l]? = some (h.entry l hl) :=
    Array.getElem?_eq_getElem (h.span.index_lt hl)
  rw [Basis.constants, hentry, Option.map_some]

/-- A channel with its tables is determined by the modulus and the tables. -/
theorem TabledChannel.ext_constants {g : Geometry} {e e' : TabledChannel g}
    (h : (e.channel, e.forward, e.inverse) = (e'.channel, e'.forward, e'.inverse)) : e = e' := by
  obtain ⟨channel, forward, inverse, _, _⟩ := e
  obtain ⟨rfl, rfl, rfl⟩ : channel = e'.channel ∧ forward = e'.forward ∧ inverse = e'.inverse := by
    simpa only [Prod.mk.injEq] using h
  rfl

namespace Engine

/-- The result in a channel depends on its modulus and tables and on its own words. -/
theorem channelWords_execute_eq {b b' : Basis} {g : Geometry} (hgeometry : b.geometry = g)
    (hgeometry' : b'.geometry = g) {e e' : Engine g} (he : e.Runs b) (he' : e'.Runs b')
    {k k' : Channelwise} {w w' : Window} {h : w.Fits b} {h' : w'.Fits b'} (hk : h.Accepts k)
    (hk' : h'.Accepts k') {l l' : ℕ} (hl : l < w.count) (hl' : l' < w'.count)
    (hconstants : b.constants (w.offset + l) = b'.constants (w'.offset + l'))
    (hagree : k.Agree g l l' k') :
    Transfer.channelWords g (e.execute (k.on w)).buffer l =
      Transfer.channelWords g (e'.execute (k'.on w')).buffer l' := by
  -- both bases have the geometry of the engine, so that their entries may be compared
  obtain ⟨g', entries', hpos'⟩ := b'
  obtain rfl : g' = g := hgeometry'
  subst hgeometry
  obtain ⟨-, -, hwritten⟩ := execute_accepted he hk
  obtain ⟨-, -, hwritten'⟩ := execute_accepted he' hk'
  have hentry : h.entry l hl = h'.entry l' hl' := by
    rw [h.constants_entry hl, h'.constants_entry hl', Option.some_inj] at hconstants
    exact TabledChannel.ext_constants hconstants
  refine Transfer.eq_of_chunk_zero
    (Transfer.size_channelWords hl (hk.words_le.trans_eq hwritten.size_eq.symm))
    (Transfer.size_channelWords hl' (hk'.words_le.trans_eq hwritten'.size_eq.symm)) ?_
  rw [Transfer.chunk_channelWords, Transfer.chunk_channelWords, hwritten.chunk_eq l hl, hentry,
    hagree.result_eq]
  exact (hwritten'.chunk_eq l' hl').symm

/-- **Channels are independent.** Let an engine that runs a basis accept an entrywise operation or a
transform on a window. On the words of each channel of the window alone, with the window of that
channel, the same operation succeeds, whatever has been done in between by the same operation in
other channels and in whichever order, and the leading words of the buffer are what these leave, one
after the other. The words in a channel are the same for any operation of the kind that any engine
of the geometry accepts, as long as the words of input in that channel, its modulus and its tables
are the same. -/
theorem channels_independent {g : Geometry} {b : Basis} {e : Engine g} (he : e.Runs b)
    {k : Channelwise} {w : Window} (hok : (e.execute (k.on w)).outcome = .ok none) :
    let whole := e.execute (k.on w)
    let part := fun l => (k.channel g l).on (.single (w.offset + l))
    (whole.engine.Runs b ∧
      whole.buffer.toList.take (g.words w.count) =
        (List.range w.count).flatMap fun l => (e.execute (part l)).buffer.toList) ∧
    (∀ e' : Engine g, e'.Runs b → ∀ order : List ℕ, (∀ l ∈ order, l < w.count) →
      (e'.executeAll (order.map part)).map (fun reply => (reply.outcome, reply.buffer)) =
        order.map fun l => (.ok none, (e.execute (part l)).buffer)) ∧
    ∀ (b' : Basis) (e' : Engine g) (k' : Channelwise) (w' : Window), e'.Runs b' →
      (e'.execute (k'.on w')).outcome = .ok none → ∀ l < w.count, ∀ l' < w'.count,
        b.constants (w.offset + l) = b'.constants (w'.offset + l') → k.Agree g l l' k' →
          Transfer.channelWords g whole.buffer l =
            Transfer.channelWords g (e'.execute (k'.on w')).buffer l' := by
  intro whole part
  obtain ⟨rfl, h, hk⟩ := accepts_of_outcome he hok
  obtain ⟨-, hruns, hwritten⟩ := execute_accepted he hk
  have hpart : ∀ l < w.count, (e.execute (part l)).buffer =
      Transfer.channelWords b.geometry whole.buffer l :=
    fun l hl => (execute_channel he hk he hl).2.2
  refine ⟨⟨hruns, ?_⟩, fun e' he' order horder => ?_, fun b' e' k' w' he' hok' l hl l' hl' => ?_⟩
  · rw [Transfer.toList_take_words (hk.words_le.trans_eq hwritten.size_eq.symm)]
    exact List.flatMap_congr fun l hl => congrArg _ (hpart l (List.mem_range.1 hl)).symm
  · rw [executeAll_channels he hk order he' horder]
    exact List.map_congr_left fun l hl => by rw [hpart l (horder l hl)]
  · obtain ⟨hgeometry, h', hk'⟩ := accepts_of_outcome he' hok'
    exact channelWords_execute_eq rfl hgeometry he he' hk hk' hl hl'

/-- A transform of two channels leaves what a transform of each alone leaves, the second before the
first as well, and other words in the first channel do not change the second. -/
theorem channels_independent_two_channels :
    ∃ (g : Geometry) (b : Basis) (e : Engine g), b.moduli = #[97, 193] ∧ e.Runs b ∧
      let k : UInt64 → Channelwise := fun x =>
        .transform .forward (Array.replicate 16 x ++ Array.replicate 16 192)
      let part := fun l => ((k 96).channel g l).on (.single (0 + l))
      (e.execute ((k 96).on (.leading 2))).outcome = .ok none ∧
        (e.execute ((k 96).on (.leading 2))).buffer.toList.take (g.words 2) =
          (e.execute (part 0)).buffer.toList ++ (e.execute (part 1)).buffer.toList ∧
        (e.executeAll [part 1, part 0]).map (fun reply => (reply.outcome, reply.buffer)) =
          [(.ok none, (e.execute (part 1)).buffer), (.ok none, (e.execute (part 0)).buffer)] ∧
        Transfer.channelWords g (e.execute ((k 96).on (.leading 2))).buffer 1 =
          Transfer.channelWords g (e.execute ((k 5).on (.leading 2))).buffer 1 := by
  obtain ⟨b, hb, hmoduli⟩ := Basis.exists_derived_smallGeometry
  let e := ((blank Basis.smallGeometry).execute (.install b)).engine
  have hruns : e.Runs b := (execute_install_derived hb _).2
  have hsize : b.size = 2 := b.size_moduli.symm.trans (congrArg Array.size hmoduli)
  have hok : ∀ data : Array UInt64, b.Admits (.leading 2) data →
      (e.execute (.transform .forward data (.leading 2))).outcome = .ok none := fun data hdata =>
    ((transform_round_trip hb (by decide : 2 ≤ Basis.smallGeometry.capacity)
      (hsize.symm ▸ Nat.le_refl 2 : 0 + 2 ≤ b.size) hdata).2 e hruns .forward).1
  let k : UInt64 → Channelwise := fun x =>
    .transform .forward (Array.replicate 16 x ++ Array.replicate 16 192)
  have hgreatest : (e.execute ((k 96).on (.leading 2))).outcome = .ok none := by
    refine hok _ ?_
    rw [hb.admits_iff, hmoduli]
    decide +kernel
  have hother : (e.execute ((k 5).on (.leading 2))).outcome = .ok none := by
    refine hok _ ?_
    rw [hb.admits_iff, hmoduli]
    decide +kernel
  obtain ⟨⟨-, hwords⟩, horder, hothers⟩ := channels_independent hruns hgreatest
  have htwo : List.range (Window.leading 2).count = [0, 1] := rfl
  rw [htwo, List.flatMap_cons, List.flatMap_cons, List.flatMap_nil, List.append_nil] at hwords
  refine ⟨_, b, e, hmoduli, hruns, hgreatest, hwords, horder e hruns [1, 0] (by decide),
    hothers b e (k 5) _ hruns hother 1 (by decide) 1 (by decide) rfl (.transform ?_)⟩
  decide +kernel

end Engine

end RnsEngine
