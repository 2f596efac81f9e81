import Mathlib.Data.List.Basic
import RnsEngine.Proofs.Fold
import RnsEngine.Proofs.Refusal
import RnsEngine.Proofs.Sampler.Rejection

/-!
# Filling buffers with draws

A buffer is filled chunk after chunk, side by side with the moduli: each word of a chunk is replaced
by a draw below the modulus of the chunk (`Sampler.fillChunks`). Since a draw takes as many words of
the stream as it needs, every draw depends on all before it. The walk through the chunks is a walk
through the leading addresses (`zip_chunks`), so it makes one draw for every address, in their order
and with the bound of its chunk, and writes what is drawn in front of the words that are left over
(`Sampler.fillChunks_eq`). This is so for draws of any kind, those with a limit and those without
(`Sampler.seek`).

A stream that holds an acceptable word for every draw (`Sampler.Supplied`) determines the numbers
that are drawn and the streams between the draws, `Sampler.Draws`. Draws without a limit end with
them, and so do draws with a limit from some limit on.
-/

namespace RnsEngine

namespace Sampler

open WordStream

/-! ### Programs -/

/-- The bounds of the leading words of a buffer by their addresses, those of chunks of `n` words. -/
def bounds (moduli : List UInt64) (n : ℕ) : List UInt64 := moduli.flatMap (List.replicate n)

/-- A number below a bound, from as many words as it takes. -/
def seek {σ : Type} [WordStream σ] (bound : UInt64) (s : σ) : Part (UInt64 × σ) :=
  search bound (maskBelow bound) s

section Programs

variable {m : Type → Type} [Monad m] {σ : Type} (draw : UInt64 → σ → m (UInt64 × σ))

/-- A number below each of some bounds, one after the other. -/
def drawEach : List UInt64 → σ → m (List UInt64 × σ)
  | [], s => pure ([], s)
  | bound :: bounds, s => do
    let (x, s) ← draw bound s
    let (xs, s) ← drawEach bounds s
    return (x :: xs, s)

/-- Replaces the word at an address by a number below a bound. -/
def drawAt (bound : UInt64) (k : ℕ) (state : List UInt64 × σ) : m (List UInt64 × σ) := do
  let (x, s) ← draw bound state.2
  return (state.1.set k x, s)

/-- Fills a chunk of `n` words with numbers below a bound. -/
def fillChunk (n l : ℕ) (bound : UInt64) (state : List UInt64 × σ) : m (List UInt64 × σ) :=
  (List.range n).foldlM (fun state x => drawAt draw bound (l * n + x) state) state

/-- Fills the chunks of a buffer side by side with moduli. What is left over at its end is no
chunk. -/
def fillChunks (moduli : List UInt64) (n : ℕ) (state : List UInt64 × σ) : m (List UInt64 × σ) :=
  ((List.range (state.1.length / n)).zip moduli).foldlM
    (fun state p => fillChunk draw n p.1 p.2 state) state

/-- A new buffer that is filled with chunks. -/
def newChunks (moduli : List UInt64) (n : ℕ) (s : σ) : m (List UInt64 × σ) :=
  fillChunks draw moduli n (List.replicate (moduli.length * n) 0, s)

end Programs

/-! ### Addresses -/

section Addresses

variable {moduli : List UInt64} {n : ℕ}

/-- There is a bound for every word of every chunk. -/
theorem length_bounds (moduli : List UInt64) (n : ℕ) :
    (bounds moduli n).length = moduli.length * n := by
  simp [bounds, List.length_flatMap]

/-- The first chunk comes first. -/
theorem bounds_cons (q : UInt64) (moduli : List UInt64) (n : ℕ) :
    bounds (q :: moduli) n = List.replicate n q ++ bounds moduli n :=
  List.flatMap_cons

/-- The chunks of one list of moduli are followed by those of another. -/
theorem bounds_append (moduli moduli' : List UInt64) (n : ℕ) :
    bounds (moduli ++ moduli') n = bounds moduli n ++ bounds moduli' n :=
  List.flatMap_append

/-- Equal bounds with their addresses. -/
theorem zipIdx_replicate (n k : ℕ) (bound : UInt64) :
    (List.replicate n bound).zipIdx k = (List.range n).map fun x => (bound, k + x) :=
  List.ext_getElem (by simp) fun i hi hi' => by simp

/-- The words of the chunks, chunk after chunk, have the addresses in their order, and the bound of
the chunk that they belong to. -/
theorem zip_chunks {count : ℕ} (hcount : moduli.length ≤ count) (first n : ℕ) :
    (((List.range' first count).zip moduli).flatMap fun p =>
      (List.range n).map fun x => (p.2, p.1 * n + x)) =
        (bounds moduli n).zipIdx (first * n) := by
  induction moduli generalizing first count with
  | nil => simp [bounds]
  | cons q moduli ih =>
    obtain ⟨count, rfl⟩ := Nat.exists_eq_succ_of_ne_zero (Nat.ne_zero_of_lt hcount)
    rw [List.range'_succ, List.zip_cons_cons, List.flatMap_cons, ih (Nat.le_of_succ_le_succ hcount),
      Nat.succ_mul, bounds_cons, List.zipIdx_append, zipIdx_replicate, List.length_replicate]

/-- The bound at an address is the modulus of its chunk. -/
theorem getElem?_bounds {l x : ℕ} (hl : l < moduli.length) (hx : x < n) :
    (bounds moduli n)[l * n + x]? = some moduli[l] := by
  induction moduli generalizing l with
  | nil => exact absurd hl (Nat.not_lt_zero l)
  | cons q moduli ih =>
    rw [bounds_cons, List.getElem?_append, List.length_replicate]
    cases l with
    | zero =>
      rw [Nat.zero_mul, Nat.zero_add, if_pos hx, List.getElem?_replicate, if_pos hx,
        List.getElem_cons_zero]
    | succ l =>
      have hle : n ≤ (l + 1) * n + x := Nat.succ_mul l n ▸ by omega
      have hrest : (l + 1) * n + x - n = l * n + x := by rw [Nat.succ_mul]; omega
      rw [if_neg (Nat.not_lt.2 hle), hrest, List.getElem_cons_succ]
      exact ih (Nat.lt_of_succ_lt_succ hl)

end Addresses

/-! ### Fills as draws -/

section Fills

variable {m : Type → Type} [Monad m] [LawfulMonad m] {σ : Type} {draw : UInt64 → σ → m (UInt64 × σ)}

/-- The draws of two lists of bounds follow each other. -/
theorem drawEach_append (bounds bounds' : List UInt64) (s : σ) :
    drawEach draw (bounds ++ bounds') s = (do
      let (xs, s) ← drawEach draw bounds s
      let (ys, s) ← drawEach draw bounds' s
      return (xs ++ ys, s)) := by
  induction bounds generalizing s with
  | nil => simp [drawEach]
  | cons bound bounds ih =>
    simp only [List.cons_append, drawEach, ih, bind_assoc, pure_bind]

variable (draw) in
/-- Draws to consecutive addresses write what is drawn between the words before and after. -/
theorem foldlM_drawAt (bounds done rest : List UInt64) (s : σ)
    (hroom : bounds.length ≤ rest.length) :
    (bounds.zipIdx done.length).foldlM (fun state p => drawAt draw p.1 p.2 state)
        (done ++ rest, s) = (do
      let (xs, s) ← drawEach draw bounds s
      return (done ++ (xs ++ rest.drop bounds.length), s)) := by
  induction bounds generalizing done rest s with
  | nil => simp [drawEach]
  | cons bound bounds ih =>
    obtain ⟨y, rest, rfl⟩ := List.exists_cons_of_ne_nil (List.ne_nil_of_length_pos
      (Nat.lt_of_lt_of_le (Nat.succ_pos _) hroom))
    rw [List.zipIdx_cons, List.foldlM_cons, drawAt, drawEach, bind_assoc, bind_assoc]
    refine bind_congr fun ⟨x, s⟩ => ?_
    -- the word that has been drawn is the last of those before
    have hset : (done ++ y :: rest).set done.length x = (done ++ [x]) ++ rest := by simp
    have hlength : done.length + 1 = (done ++ [x]).length := by simp
    refine (pure_bind _ _).trans ?_
    rw [hset, hlength, ih (done ++ [x]) rest s (Nat.le_of_succ_le_succ hroom)]
    simp only [bind_assoc, pure_bind, List.append_assoc, List.cons_append, List.nil_append,
      List.length_cons, List.drop_succ_cons]

/-- Filling the chunks of a buffer makes a draw for every address in their order, and leaves the
words behind the last chunk alone. -/
theorem fillChunks_eq {moduli buffer : List UInt64} {n : ℕ} (hn : 0 < n)
    (hroom : moduli.length * n ≤ buffer.length) (s : σ) :
    fillChunks draw moduli n (buffer, s) = (do
      let (xs, s) ← drawEach draw (bounds moduli n) s
      return (xs ++ buffer.drop (moduli.length * n), s)) := by
  have hcount : moduli.length ≤ buffer.length / n := (Nat.le_div_iff_mul_le hn).2 hroom
  have hplaces := zip_chunks hcount 0 n
  rw [Nat.zero_mul, ← List.range_eq_range'] at hplaces
  have hwrite := foldlM_drawAt draw (bounds moduli n) [] buffer s
    (length_bounds moduli n ▸ hroom)
  rw [List.length_nil, ← hplaces, foldlM_flatMap, length_bounds] at hwrite
  simp only [List.foldlM_map, List.nil_append] at hwrite
  exact hwrite

/-- A new buffer holds what is drawn for its addresses in their order. -/
theorem newChunks_eq {n : ℕ} (hn : 0 < n) (moduli : List UInt64) (s : σ) :
    newChunks draw moduli n s = drawEach draw (bounds moduli n) s := by
  rw [newChunks, fillChunks_eq hn (by simp)]
  simp

/-- A new buffer for the moduli of two lists holds what is drawn for the first and then for the
second. -/
theorem newChunks_append {n : ℕ} (hn : 0 < n) (moduli moduli' : List UInt64) (s : σ) :
    newChunks draw (moduli ++ moduli') n s = (do
      let (xs, s) ← newChunks draw moduli n s
      let (ys, s) ← newChunks draw moduli' n s
      return (xs ++ ys, s)) := by
  simp only [newChunks_eq hn, bounds_append, drawEach_append]

end Fills

/-! ### Streams that supply all draws -/

section Supply

variable {σ : Type} [WordStream σ]

/-- A stream holds an acceptable word for a draw below each of some bounds, one after the other. -/
def Supplied : List UInt64 → σ → Prop
  | [], _ => True
  | bound :: bounds, s => ∃ k, IsLeast (accepted bound (maskBelow bound) s) k ∧
      Supplied bounds (taken (maskBelow bound) s k).2

/-- The numbers that are drawn below some bounds, and the streams between the draws: every number is
the first acceptable word of its stream, and the next stream is what comes after it. -/
structure Draws (bounds xs : List UInt64) (stream : ℕ → σ) : Prop where
  length_eq : xs.length = bounds.length
  draw : ∀ i bound, bounds[i]? = some bound → ∃ x k, xs[i]? = some x ∧
    IsLeast (accepted bound (maskBelow bound) (stream i)) k ∧
      taken (maskBelow bound) (stream i) k = (x, stream (i + 1))

variable {bound : UInt64} {bounds xs : List UInt64} {stream : ℕ → σ} {s : σ} {k : ℕ}

/-- Only a positive bound accepts a word. -/
theorem pos_of_isLeast (h : IsLeast (accepted bound (maskBelow bound) s) k) : 0 < bound :=
  UInt64.lt_of_le_of_lt UInt64.zero_le h.1

/-- After the first draw the others are draws from the stream after it. -/
theorem Draws.exists_cons (h : Draws (bound :: bounds) xs stream) :
    ∃ x xs' k, xs = x :: xs' ∧ IsLeast (accepted bound (maskBelow bound) (stream 0)) k ∧
      taken (maskBelow bound) (stream 0) k = (x, stream 1) ∧
        Draws bounds xs' fun i => stream (i + 1) := by
  obtain ⟨x, k, hx, hk, htaken⟩ := h.draw 0 bound rfl
  obtain ⟨xs, rfl⟩ : ∃ xs', xs = x :: xs' := by
    cases xs with
    | nil => cases hx
    | cons y xs => exact ⟨xs, by rw [Option.some.inj hx]⟩
  exact ⟨x, xs, k, rfl, hk, htaken, Nat.succ.inj h.length_eq, fun i => h.draw (i + 1)⟩

/-- A stream that supplies all draws determines them. -/
theorem Supplied.exists_draws (h : Supplied bounds s) :
    ∃ (xs : List UInt64) (stream : ℕ → σ), stream 0 = s ∧ Draws bounds xs stream := by
  induction bounds generalizing s with
  | nil => exact ⟨[], fun _ => s, rfl, rfl, fun _ _ hi => by cases hi⟩
  | cons bound bounds ih =>
    obtain ⟨k, hk, hrest⟩ := h
    obtain ⟨xs, stream, hstart, hdraws⟩ := ih hrest
    refine ⟨(taken (maskBelow bound) s k).1 :: xs, fun i => i.casesOn s stream, rfl,
      congrArg (· + 1) hdraws.length_eq, fun i q hi => ?_⟩
    cases i with
    | zero =>
      obtain rfl := Option.some.inj hi
      exact ⟨_, k, rfl, hk, Prod.ext rfl hstart.symm⟩
    | succ i => exact hdraws.draw i q hi

/-- What is drawn is below its bound. -/
theorem Draws.exists_lt (h : Draws bounds xs stream) {i : ℕ} (hi : bounds[i]? = some bound) :
    ∃ x, xs[i]? = some x ∧ x < bound ∧ seek bound (stream i) = Part.some (x, stream (i + 1)) := by
  obtain ⟨x, k, hx, hk, htaken⟩ := h.draw i bound hi
  refine ⟨x, hx, ?_, ?_⟩
  · obtain rfl := congrArg Prod.fst htaken
    exact hk.1
  · rw [seek, search_of_isLeast hk, htaken]

/-- Draws without a limit end with what is drawn. -/
theorem Draws.drawEach_seek (h : Draws bounds xs stream) :
    drawEach seek bounds (stream 0) = Part.some (xs, stream bounds.length) := by
  induction bounds generalizing xs stream with
  | nil => rw [List.eq_nil_of_length_eq_zero h.length_eq]; rfl
  | cons bound bounds ih =>
    obtain ⟨x, xs, k, rfl, hk, htaken, hrest⟩ := h.exists_cons
    rw [drawEach, seek, search_of_isLeast hk, htaken]
    refine (pure_bind _ _).trans ?_
    exact (congrArg (· >>= _) (ih hrest)).trans (pure_bind _ _)

/-- Draws with a limit end with what is drawn when the limit is large enough for all of them. -/
theorem Draws.exists_drawEach_below (h : Draws bounds xs stream) :
    ∃ least, ∀ limit, drawEach (below limit) bounds (stream 0) =
      if least ≤ limit then .ok (xs, stream bounds.length) else .error .starved := by
  induction bounds generalizing xs stream with
  | nil =>
    refine ⟨0, fun limit => ?_⟩
    rw [List.eq_nil_of_length_eq_zero h.length_eq, if_pos (Nat.zero_le limit)]
    rfl
  | cons bound bounds ih =>
    obtain ⟨x, xs, k, rfl, hk, htaken, hrest⟩ := h.exists_cons
    obtain ⟨least, hleast⟩ := ih hrest
    refine ⟨max (k + 1) least, fun limit => ?_⟩
    rw [drawEach, below_of_pos (pos_of_isLeast hk), masked_eq hk, htaken]
    by_cases hlimit : k < limit
    · have hiff : max (k + 1) least ≤ limit ↔ least ≤ limit := by omega
      have hrun := hleast limit
      rw [if_pos hlimit, ok_bind]
      refine (congrArg (· >>= _) hrun).trans ?_
      simp only [hiff]
      split <;> rfl
    · rw [if_neg hlimit, if_neg (by omega), error_bind]

/-- A draw with a limit that ends has found the first acceptable word. -/
theorem exists_isLeast_of_below {limit : ℕ} {r : UInt64 × σ} (h : below limit bound s = .ok r) :
    ∃ k, IsLeast (accepted bound (maskBelow bound) s) k ∧ taken (maskBelow bound) s k = r := by
  have hmasked : masked limit bound (maskBelow bound) s = .ok r := by
    rw [below] at h
    split at h
    · cases h
    · exact h
  rcases (accepted bound (maskBelow bound) s).eq_empty_or_nonempty with hempty | hsome
  · rw [masked_of_empty hempty] at hmasked
    cases hmasked
  · obtain ⟨k, hk⟩ := exists_isLeast hsome
    rw [masked_eq hk] at hmasked
    split at hmasked
    · exact ⟨k, hk, Except.ok.inj hmasked⟩
    · cases hmasked

/-- Draws with a limit end only on a stream that supplies them. -/
theorem supplied_of_drawEach {limit : ℕ} {r : List UInt64 × σ}
    (h : drawEach (below limit) bounds s = .ok r) : Supplied bounds s := by
  induction bounds generalizing s r with
  | nil => trivial
  | cons bound bounds ih =>
    obtain ⟨⟨x, s'⟩, hfirst, h⟩ := bind_eq_ok_iff.1 h
    obtain ⟨r', hrest, -⟩ := bind_eq_ok_iff.1 h
    obtain ⟨k, hk, htaken⟩ := exists_isLeast_of_below hfirst
    exact ⟨k, hk, htaken.symm ▸ ih hrest⟩

end Supply

/-! ### Residues -/

section Residues

variable {σ : Type} [WordStream σ] {moduli buffer : List UInt64} {n : ℕ}

/-- Draws below one bound are draws below equal bounds. -/
theorem manyBelow_eq (limit : ℕ) (bound : UInt64) (count : ℕ) (s : σ) :
    manyBelow limit bound count s = drawEach (below limit) (List.replicate count bound) s := by
  induction count generalizing s with
  | zero => rfl
  | succ count ih => simp only [manyBelow, List.replicate_succ, drawEach, ih]

/-- The residues of all channels are draws below the bounds of their words. -/
theorem manyResidues_eq (limit n : ℕ) (moduli : List UInt64) (s : σ) :
    manyResidues limit n moduli s = drawEach (below limit) (bounds moduli n) s := by
  induction moduli generalizing s with
  | nil => rfl
  | cons q moduli ih => simp only [manyResidues, bounds_cons, drawEach_append, manyBelow_eq, ih]

/-- A buffer with room is filled chunk after chunk. -/
theorem fillResidues_eq (hn : 0 < n) (hroom : moduli.length * n ≤ buffer.length) (limit : ℕ)
    (s : σ) :
    fillResidues limit moduli n buffer s = fillChunks (below limit) moduli n (buffer, s) := by
  rw [fillChunks_eq hn hroom, fillResidues, if_neg (Nat.not_lt.2 hroom), if_neg hn.ne',
    manyResidues_eq]

/-- So is a new one. -/
theorem residues_eq (hn : 0 < n) (limit : ℕ) (moduli : List UInt64) (s : σ) :
    residues limit moduli n s = newChunks (below limit) moduli n s :=
  fillResidues_eq hn (by simp) limit s

/-- **Residues are drawn address by address.** On a stream that holds an acceptable word for every
draw, which it cannot for a modulus of zero, a buffer with room for `n` words of every channel is
filled: at every address is a number below the modulus of its channel, namely the one that is drawn
from the stream that the draw for the address before has left. The first draw is from the given
stream, and the last leaves the stream in which the fill ends. The words behind the channels are
kept. With a limit on the words that a draw looks at, the fill ends in the same way as soon as the
limit is large enough for every draw.

Filling a new buffer for the channels of two lists is filling one for the first list and then, from
the stream that is left, one for the second. -/
theorem residues_outcome {s : σ} (hn : 0 < n) (hroom : moduli.length * n ≤ buffer.length)
    (hsupply : Supplied (bounds moduli n) s) :
    (∃ (filled : List UInt64) (stream : ℕ → σ), stream 0 = s ∧
      fillChunks seek moduli n (buffer, s) =
        Part.some (filled, stream (moduli.length * n)) ∧
      (∃ least, ∀ limit, fillResidues limit moduli n buffer s =
        if least ≤ limit then .ok (filled, stream (moduli.length * n)) else .error .starved) ∧
      (∀ l (hl : l < moduli.length), ∀ x < n, ∃ y, filled[l * n + x]? = some y ∧ y < moduli[l] ∧
        seek moduli[l] (stream (l * n + x)) = Part.some (y, stream (l * n + x + 1))) ∧
      filled.length = buffer.length ∧
      ∀ k, moduli.length * n ≤ k → filled[k]? = buffer[k]?) ∧
    ∀ moduli' : List UInt64,
      newChunks seek (moduli ++ moduli') n s = (do
        let (xs, s) ← newChunks seek moduli n s
        let (ys, s) ← newChunks seek moduli' n s
        return (xs ++ ys, s)) ∧
      ∀ limit, residues limit (moduli ++ moduli') n s = (do
        let (xs, s) ← residues limit moduli n s
        let (ys, s) ← residues limit moduli' n s
        return (xs ++ ys, s)) := by
  obtain ⟨xs, stream, rfl, hdraws⟩ := hsupply.exists_draws
  have hlength : xs.length = moduli.length * n := hdraws.length_eq.trans (length_bounds moduli n)
  refine ⟨⟨xs ++ buffer.drop (moduli.length * n), stream, rfl, ?_, ?_, ?_, ?_, ?_⟩, ?_⟩
  · rw [fillChunks_eq hn hroom, hdraws.drawEach_seek, length_bounds]
    exact pure_bind _ _
  · obtain ⟨least, hleast⟩ := hdraws.exists_drawEach_below
    refine ⟨least, fun limit => ?_⟩
    rw [fillResidues_eq hn hroom, fillChunks_eq hn hroom, hleast, length_bounds]
    split <;> rfl
  · intro l hl x hx
    obtain ⟨y, hy, hlt, hseek⟩ := hdraws.exists_lt (getElem?_bounds hl hx)
    refine ⟨y, ?_, hlt, hseek⟩
    obtain ⟨hplace, -⟩ := List.getElem?_eq_some_iff.1 hy
    rw [List.getElem?_append_left hplace, hy]
  · rw [List.length_append, List.length_drop, hlength]
    omega
  · intro k hk
    rw [List.getElem?_append_right (hlength.trans_le hk), List.getElem?_drop, hlength,
      Nat.add_sub_cancel' hk]
  · intro moduli'
    refine ⟨newChunks_append hn moduli moduli' _, fun limit => ?_⟩
    simp only [residues_eq hn, newChunks_append hn]

/-- The first word of a stream, which is too large for the first draw, and the fourth, which is too
large for the third, are passed over. -/
theorem residues_outcome_rejected_words :
    Supplied (bounds [3, 5] 2) (Tape.ofBlock #v[3, 1, 2, 7, 4, 8].get) ∧
      fillChunks seek [3, 5] 2 ([9, 9, 9, 9, 9], Tape.ofBlock #v[3, 1, 2, 7, 4, 8].get) =
        Part.some ([1, 2, 4, 0, 9],
          { Tape.ofBlock #v[3, 1, 2, 7, 4, 8].get with position := 6 }) := by
  have hrun : fillResidues 2 [3, 5] 2 [9, 9, 9, 9, 9] (Tape.ofBlock #v[3, 1, 2, 7, 4, 8].get) =
      .ok ([1, 2, 4, 0, 9], { Tape.ofBlock #v[3, 1, 2, 7, 4, 8].get with position := 6 }) := by
    rfl
  have hdraws : drawEach (below 2) (bounds [3, 5] 2) (Tape.ofBlock #v[3, 1, 2, 7, 4, 8].get) =
      .ok ([1, 2, 4, 0], { Tape.ofBlock #v[3, 1, 2, 7, 4, 8].get with position := 6 }) := by
    rfl
  have hsupply := supplied_of_drawEach hdraws
  have hroom : ([3, 5] : List UInt64).length * 2 ≤ ([9, 9, 9, 9, 9] : List UInt64).length := by
    decide
  obtain ⟨⟨filled, stream, -, hfill, ⟨least, hleast⟩, -⟩, -⟩ :=
    residues_outcome Nat.two_pos hroom hsupply
  have hresult := (hleast 2).symm.trans hrun
  split at hresult
  · rw [Except.ok.inj hresult] at hfill
    exact ⟨hsupply, hfill⟩
  · cases hresult

end Residues

end Sampler

end RnsEngine
