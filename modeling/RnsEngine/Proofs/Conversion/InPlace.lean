import Mathlib.Tactic.IntervalCases
import RnsEngine.Proofs.Conversion.Construction

/-!
# Conversions in place

A matrix is scaled over the words of its caller in two passes over its places, row after row: the
first only looks at the words and is refused for one that is not reduced, the second writes
(`BaseConversion.prescaleInPlace`). A word is written by its own column, from what the caller had
left in its place, so that the passes together do what scaling does to a matrix as a whole, and a
matrix that is refused is left alone (`BaseConversion.prescaleInPlace_eq`).

A conversion scales a copy of the matrix and multiplies over the buffer for the result
(`BaseConversion.convertInPlace`). What is accepted, what is computed and what is left alone is
`BaseConversion.conversion_outcome`.
-/

namespace RnsEngine

open Grid (Writing settled settled_bind_ok settled_bind_error get_apply)

namespace BaseConversion

variable (b : BaseConversion)

/-! ### Programs -/

/-- Does the same in every place of a matrix with so many rows, row after row. -/
def forPlaces (rows : ℕ) (body : ℕ → Fin b.source.size → Writing Unit) : Writing Unit :=
  forM (List.range rows) fun r =>
    forM (List.finRange b.source.size) fun i : Fin b.source.size => body (r * b.inputs + i) i

/-- The check that the rows of a matrix are complete. -/
def checkRows (xs : Array UInt64) : Except Fault Unit :=
  if xs.size % b.inputs ≠ 0 then
    .error (.lengthMismatch .conversionResidues ((xs.size / b.inputs + 1) * b.inputs) xs.size)
  else .ok ()

/-- Looks at a word, which must be reduced in its column. -/
def checkPlace (k : ℕ) (i : Fin b.source.size) : Writing Unit := do
  let x := (← get).getD k 0
  settled <|
    if (b.channel i).modulus ≤ x then
      .error (.operandOutOfRange .conversionResidues x (b.channel i).modulus)
    else .ok ()

/-- Writes the multiple of a word by the inverse of its column. -/
def scalePlace (k : ℕ) (i : Fin b.source.size) : Writing Unit :=
  modify fun xs => xs.modify k fun x => (b.channel i).mul x (b.inverses.get i)

/-- Scales the matrix of the caller, after it was checked. -/
def prescaleInPlace : Writing Unit := do
  let xs ← get
  settled (b.checkRows xs)
  b.forPlaces (xs.size / b.inputs) b.checkPlace
  b.forPlaces (xs.size / b.inputs) b.scalePlace

/-- What the caller of a conversion has: a matrix, and a buffer for the result. -/
structure Buffers where
  input : Array UInt64
  output : Array UInt64

/-- A program on what the caller has. -/
abbrev Converting := ExceptT Fault (StateM Buffers)

/-- Does something to a copy of the matrix, and returns the copy. -/
def onCopy (work : Writing Unit) : Converting (Array UInt64) := fun buffers =>
  let done : Except Fault Unit × Array UInt64 := work buffers.input
  (done.1.map fun _ => done.2, buffers)

/-- Does something to the buffer for the result. -/
def onOutput {α : Type} (work : Writing α) : Converting α := fun buffers =>
  let done : Except Fault α × Array UInt64 := work buffers.output
  (done.1, { buffers with output := done.2 })

/-- Converts the matrix of the caller into the buffer for the result; the cycles that it took. -/
def convertInPlace : Converting ℕ := do
  let scaled ← onCopy b.prescaleInPlace
  let s ← onOutput (settled (Shape.ofDims (scaled.size / b.inputs) b.inputs b.outputs))
  onOutput (Grid.multiplyInPlace s scaled b.weights b.targetModuli)

variable {b} {source target : List UInt64}

/-! ### The passes -/

/-- A pass row after row is one in the order of the addresses. -/
theorem forPlaces_eq (rows : ℕ) (body : ℕ → Fin b.source.size → Writing Unit) :
    b.forPlaces rows body =
      forM (List.range (rows * b.inputs)) fun k => body k (b.columnOf k) := by
  induction rows with
  | zero => rw [Nat.zero_mul]; rfl
  | succ rows ih =>
    have hrow : (forM (List.finRange b.source.size) fun i : Fin b.source.size =>
          body (rows * b.inputs + i) i) =
        forM ((List.range b.inputs).map (rows * b.inputs + ·)) fun k => body k (b.columnOf k) := by
      have hrange : List.range b.inputs = (List.finRange b.source.size).map (·.val) :=
        List.map_coe_finRange_eq_range.symm
      rw [hrange, List.map_map, List.forM_map]
      refine congrArg _ (funext fun i => ?_)
      rw [Function.comp_apply, columnOf_mul_add]
    rw [Nat.succ_mul, List.range_add, List.forM_append, ← ih, ← hrow, forPlaces, List.range_succ,
      List.forM_append, List.forM_cons, List.forM_nil, bind_pure_unit]
    rfl

/-- A look at a word finds what is at fault with it. -/
theorem checkPlace_apply (k : ℕ) (xs : Array UInt64) :
    b.checkPlace k (b.columnOf k) xs =
      (resultUnless (b.unreduced? k (xs.getD k 0)) ⟨⟩, xs) := by
  rw [checkPlace, bind_apply_of_ok (get_apply xs), settled, unreduced?]
  change (if (b.channel (b.columnOf k)).modulus ≤ xs.getD k 0 then _ else _, xs) =
    (resultUnless (if (b.channel (b.columnOf k)).modulus ≤ xs.getD k 0 then _ else _) _, xs)
  split <;> rfl

/-- The first fault of a matrix is the first in the order of the addresses. -/
theorem firstUnreduced?_eq (xs : Array UInt64) :
    b.firstUnreduced? xs =
      (List.range xs.size).findSome? fun k => b.unreduced? k (xs.getD k 0) := by
  have hwords : xs.toList.zipIdx = (List.range xs.size).map fun k => (xs.getD k 0, k) := by
    refine List.ext_getElem (by simp) fun k hk hk' => ?_
    have hlt : k < xs.size := by simpa using hk'
    simp [Array.getD_eq_getD_getElem?, hlt]
  rw [firstUnreduced?, hwords, List.findSome?_map]
  rfl

/-- The writing pass has scaled the words that it has come past, and no others. -/
theorem forM_scalePlace (xs : Array UInt64) (count : ℕ) :
    (forM (List.range count) fun k => b.scalePlace k (b.columnOf k)) xs =
      (.ok (), xs.mapIdx fun k x =>
        if k < count then (b.channel (b.columnOf k)).mul x (b.inverses.get (b.columnOf k))
        else x) := by
  induction count with
  | zero =>
    refine congrArg (Prod.mk (Except.ok ())) (Array.ext_getElem? fun k => ?_)
    simp
  | succ count ih =>
    rw [List.range_succ, List.forM_append, bind_apply_of_ok ih, List.forM_cons, List.forM_nil,
      bind_pure_unit]
    refine congrArg (Prod.mk (Except.ok ())) (Array.ext_getElem? fun k => ?_)
    rw [Array.getElem?_modify, Array.getElem?_mapIdx, Array.getElem?_mapIdx]
    cases xs[k]? with
    | none => simp
    | some x =>
      -- the place that is written now has not been written before
      by_cases hk : count = k
      · subst hk
        simp
      · have hlt : k < count + 1 ↔ k < count := by omega
        simp [hk, hlt]

/-- Scaling over the words of the caller is scaling, and what is refused leaves them alone. -/
theorem prescaleInPlace_eq (xs : Array UInt64) :
    b.prescaleInPlace xs =
      match b.prescale xs with
      | .ok ys => (.ok (), ys)
      | .error fault => (.error fault, xs) := by
  rw [prescaleInPlace, prescale, bind_apply_of_ok (get_apply xs)]
  by_cases hrows : xs.size % b.inputs = 0
  · have hsize : xs.size / b.inputs * b.inputs = xs.size :=
      Nat.div_mul_cancel (Nat.dvd_of_mod_eq_zero hrows)
    have hlook := forM_check (s := xs) (fun k => checkPlace_apply (b := b) k xs) (List.range xs.size)
    have hcheck : b.checkRows xs = .ok () := if_neg (not_not.2 hrows)
    rw [← firstUnreduced?_eq] at hlook
    rw [if_neg (not_not.2 hrows), settled_bind_ok hcheck, forPlaces_eq, forPlaces_eq, hsize]
    cases hfault : b.firstUnreduced? xs with
    | some fault =>
      rw [hfault] at hlook
      exact bind_apply_of_error hlook
    | none =>
      rw [hfault] at hlook
      rw [bind_apply_of_ok hlook, forM_scalePlace]
      refine congrArg (Prod.mk (Except.ok ())) (Array.mapIdx_eq_mapIdx_iff.2 fun k hk => ?_)
      rw [if_pos hk]
      rfl
  · have hcheck : b.checkRows xs = .error _ := if_pos hrows
    rw [if_pos hrows, settled_bind_error hcheck]

/-! ### Scaling -/

/-- A scaled matrix is as large as it was. -/
theorem size_of_prescale {xs ys : Array UInt64} (hys : b.prescale xs = .ok ys) :
    ys.size = xs.size := by
  obtain ⟨-, rfl⟩ := prescale_eq_ok_iff.1 hys
  exact Array.size_mapIdx

/-- A matrix with a column for each modulus, whose words are reduced in their columns. -/
structure ReducedMatrix (moduli : List UInt64) (xs : Array UInt64) : Prop where
  dvd_size : moduli.length ∣ xs.size
  lt : ∀ r i (hi : i < moduli.length) x, xs[r * moduli.length + i]? = some x → x < moduli[i]

namespace Converts

variable (h : b.Converts source target)
include h

/-- The column of a place of a row. -/
theorem val_columnOf (r : ℕ) {i : ℕ} (hi : i < source.length) :
    (b.columnOf (r * source.length + i)).val = i := by
  rw [h.length_source] at hi ⊢
  exact congrArg Fin.val (b.columnOf_mul_add r ⟨i, hi⟩)

/-- The matrices that are scaled are the reduced ones. -/
theorem exists_prescale_iff {xs : Array UInt64} :
    (∃ ys, b.prescale xs = .ok ys) ↔ ReducedMatrix source xs := by
  constructor
  · rintro ⟨ys, hys⟩
    obtain ⟨⟨hrows, hlt⟩, -⟩ := prescale_eq_ok_iff.1 hys
    refine ⟨h.length_source ▸ Nat.dvd_of_mod_eq_zero hrows, fun r i hi x hx => ?_⟩
    rw [← (h.cofactorAt_eq hi (h.val_columnOf r hi)).1]
    exact hlt _ x hx
  · rintro ⟨hdvd, hlt⟩
    refine ⟨_, prescale_eq_ok_iff.2 ⟨⟨?_, fun k x hx => ?_⟩, rfl⟩⟩
    · rw [← h.length_source]
      exact Nat.mod_eq_zero_of_dvd hdvd
    · have hi : k % source.length < source.length := by
        rw [h.length_source]
        exact Nat.mod_lt _ b.inputs_pos
      rw [← Nat.div_add_mod' k source.length] at hx ⊢
      rw [(h.cofactorAt_eq hi (h.val_columnOf _ hi)).1]
      exact hlt _ _ hi x hx

/-- What scaling makes of a word: the multiple by the inverse of its column, which the cofactor
turns back into the word. -/
theorem word_of_prescale {xs ys : Array UInt64} (hys : b.prescale xs = .ok ys) {r i : ℕ}
    (hi : i < source.length) {x : UInt64} (hx : xs[r * source.length + i]? = some x) :
    ∃ c y, b.inverses[i]? = some c ∧ ys[r * source.length + i]? = some y ∧
      y.toNat = x.toNat * c.toNat % source[i].toNat ∧
      (source.map (·.toNat)).prod / source[i].toNat * y.toNat % source[i].toNat = x.toNat := by
  obtain ⟨⟨-, hlt⟩, rfl⟩ := prescale_eq_ok_iff.1 hys
  let column := b.columnOf (r * source.length + i)
  have hval : column.val = i := h.val_columnOf r hi
  obtain ⟨hmodulus, hcofactor⟩ := h.cofactorAt_eq hi hval
  have hreduced := hlt _ x hx
  have hword := (b.channel column).toNat_mul hreduced (h.invertible.inverse_lt column)
  refine ⟨b.inverses.get column, (b.channel column).mul x (b.inverses.get column), ?_, ?_, ?_, ?_⟩
  · simp only [← hval]
    exact Vector.getElem?_eq_getElem column.isLt
  · rw [Array.getElem?_mapIdx, hx]
    rfl
  · rw [hword, hmodulus]
  · rw [← hcofactor, ← hmodulus, hword, Nat.mul_mod_mod, Nat.mul_left_comm, Nat.mul_mod,
      h.invertible.cofactorAt_mul_mod, Nat.mul_one, Nat.mod_mod]
    exact Nat.mod_eq_of_lt (UInt64.lt_iff_toNat_lt.1 hreduced)

/-! ### Conversions -/

/-- The matrices that are converted are the reduced ones with a row, if there is room for the
result. -/
theorem exists_convert_iff {xs output : Array UInt64} :
    (∃ p, b.convert xs output = .ok p) ↔
      xs ≠ #[] ∧ ReducedMatrix source xs ∧
        xs.size / source.length * target.length ≤ output.size := by
  rw [h.length_target, ← h.exists_prescale_iff, h.length_source]
  constructor
  · rintro ⟨p, hp⟩
    obtain ⟨scaled, hscaled, hp⟩ := bind_eq_ok_iff.1 hp
    obtain ⟨s, hshape, hp⟩ := bind_eq_ok_iff.1 hp
    obtain ⟨hrows, -, houtputs⟩ := Shape.ofDims_eq_ok_iff.1 hshape
    rw [size_of_prescale hscaled] at hrows
    refine ⟨?_, ⟨scaled, hscaled⟩, ?_⟩
    · rintro rfl
      exact absurd s.rows_pos (by simp [hrows])
    · rw [← hrows, ← houtputs]
      exact (Grid.multiply_eq_ok_iff.1 hp).1.output_size
  · rintro ⟨hne, ⟨scaled, hscaled⟩, hroom⟩
    have hsize := size_of_prescale hscaled
    have hcomplete : xs.size / b.inputs * b.inputs = xs.size :=
      Nat.div_mul_cancel (Nat.dvd_of_mod_eq_zero (prescale_eq_ok_iff.1 hscaled).1.1)
    have hrows : 0 < xs.size / b.inputs := by
      refine Nat.pos_of_ne_zero fun hzero => hne (Array.eq_empty_of_size_eq_zero ?_)
      rw [← hcomplete, hzero, Nat.zero_mul]
    have hlt : ∀ r < xs.size / b.inputs, ∀ i : Fin b.source.size,
        scaled.getD (r * b.inputs + i) 0 < (b.channel i).modulus := by
      intro r hr i
      have hk : r * b.inputs + i < scaled.size := by
        rw [hsize, ← hcomplete]
        exact mul_add_lt_mul hr i.isLt
      have hword := Array.getElem?_eq_getElem hk
      have hreduced := h.invertible.scaled_lt hscaled hword
      rw [columnOf_mul_add] at hreduced
      rwa [Array.getD_eq_getD_getElem?, hword, Option.getD_some]
    have haccepts := h.accepts hrows (hsize.trans hcomplete.symm) hlt hroom
    refine ⟨_, bind_eq_ok_iff.2 ⟨scaled, hscaled, bind_eq_ok_iff.2
      ⟨h.shape _ hrows, ?_, Grid.multiply_eq_ok_iff.2 ⟨haccepts, rfl⟩⟩⟩⟩
    rw [hsize]
    exact Shape.ofDims_eq_ok_iff.2 ⟨rfl, rfl, rfl⟩

end Converts

/-- A conversion leaves the words past the result as they were. -/
theorem tail_of_convert {xs output : Array UInt64} {p : Product}
    (hp : b.convert xs output = .ok p) :
    p.output.size = output.size ∧
      ∀ k, xs.size / b.inputs * b.outputs ≤ k → p.output[k]? = output[k]? := by
  obtain ⟨scaled, hscaled, hp⟩ := bind_eq_ok_iff.1 hp
  obtain ⟨s, hshape, hp⟩ := bind_eq_ok_iff.1 hp
  obtain ⟨hrows, -, houtputs⟩ := Shape.ofDims_eq_ok_iff.1 hshape
  obtain ⟨haccepts, rfl⟩ := Grid.multiply_eq_ok_iff.1 hp
  have hcollected :=
    (Grid.spaceTime_after scaled b.weights b.targetModuli haccepts.output_size s.cycles).collected
  rw [← size_of_prescale hscaled, ← hrows, ← houtputs]
  exact ⟨hcollected.size_eq, hcollected.tail_eq⟩

/-- A conversion of what the caller has is the conversion, and leaves the matrix alone; one that is
refused leaves everything alone. -/
theorem convertInPlace_eq (buffers : Buffers) :
    b.convertInPlace buffers =
      match b.convert buffers.input buffers.output with
      | .ok p => (.ok p.cycles, { buffers with output := p.output })
      | .error fault => (.error fault, buffers) := by
  have hcopy : onCopy b.prescaleInPlace buffers = (b.prescale buffers.input, buffers) := by
    rw [onCopy, prescaleInPlace_eq]
    cases b.prescale buffers.input <;> rfl
  unfold convertInPlace convert
  cases hscaled : b.prescale buffers.input with
  | error fault =>
    rw [hscaled] at hcopy
    exact bind_apply_of_error hcopy
  | ok scaled =>
    rw [hscaled] at hcopy
    rw [bind_apply_of_ok hcopy, ok_bind]
    cases hshape : Shape.ofDims (scaled.size / b.inputs) b.inputs b.outputs with
    | error fault => exact bind_apply_of_error rfl
    | ok s =>
      have hsettled : onOutput (settled (Except.ok (ε := Fault) s)) buffers = (.ok s, buffers) := rfl
      rw [bind_apply_of_ok hsettled, ok_bind, onOutput, Grid.multiplyInPlace_eq]
      cases Grid.multiply s scaled b.weights b.targetModuli buffers.output <;> rfl

/-- **Scaling and converting in place.** A matrix is scaled over the words of its caller exactly when
its rows are complete and its words are reduced in their columns. Every word is then multiplied by
the inverse of its column, and the cofactor of the column makes it the old word again. A matrix that
is refused is left as it was. A conversion takes place exactly when there is a row, the matrix would
be scaled and there is room for the result. It always leaves the matrix as it was, and so the buffer
for the result when it is refused; otherwise it leaves the words past the result. -/
theorem conversion_outcome (hb : ofModuli source target = .ok b) (xs output : Array UInt64) :
    let used := xs.size / source.length * target.length
    let scaling : Except Fault Unit × Array UInt64 := b.prescaleInPlace xs
    let conversion : Except Fault ℕ × Buffers := b.convertInPlace ⟨xs, output⟩
    (scaling.1 = .ok () ↔ ReducedMatrix source xs) ∧
      (scaling.1 = .ok () → scaling.2.size = xs.size ∧
        ∀ r i (hi : i < source.length) x, xs[r * source.length + i]? = some x →
          ∃ c y, b.inverses[i]? = some c ∧ scaling.2[r * source.length + i]? = some y ∧
            y.toNat = x.toNat * c.toNat % source[i].toNat ∧
            (source.map (·.toNat)).prod / source[i].toNat * y.toNat % source[i].toNat =
              x.toNat) ∧
      (∀ fault, scaling.1 = .error fault → scaling.2 = xs) ∧
      ((∃ cycles, conversion.1 = .ok cycles) ↔
        xs ≠ #[] ∧ scaling.1 = .ok () ∧ used ≤ output.size) ∧
      conversion.2.input = xs ∧
      (∀ fault, conversion.1 = .error fault → conversion.2.output = output) ∧
      (∀ cycles, conversion.1 = .ok cycles → conversion.2.output.size = output.size ∧
        ∀ k, used ≤ k → conversion.2.output[k]? = output[k]?) ∧
      b.prescale xs = scaling.1.map (fun _ => scaling.2) ∧
      b.convert xs output = conversion.1.map fun cycles => ⟨cycles, conversion.2.output⟩ := by
  intro used scaling conversion
  have h := converts_of_ofModuli hb
  have hscaling : scaling = match b.prescale xs with
      | .ok ys => (.ok (), ys)
      | .error fault => (.error fault, xs) := prescaleInPlace_eq xs
  have hconversion : conversion = match b.convert xs output with
      | .ok p => (.ok p.cycles, ⟨xs, p.output⟩)
      | .error fault => (.error fault, ⟨xs, output⟩) := convertInPlace_eq ⟨xs, output⟩
  have hused : used = xs.size / b.inputs * b.outputs := by
    rw [← h.length_source, ← h.length_target]
  have haccepted : scaling.1 = .ok () ↔ ReducedMatrix source xs := by
    rw [← h.exists_prescale_iff, hscaling]
    cases b.prescale xs <;> simp
  have hconverted : (∃ cycles, conversion.1 = .ok cycles) ↔ ∃ p, b.convert xs output = .ok p := by
    rw [hconversion]
    cases b.convert xs output <;> simp
  refine ⟨haccepted, ?_, ?_, ?_, ?_, ?_, ?_, ?_, ?_⟩
  · rw [hscaling]
    cases hys : b.prescale xs with
    | ok ys => exact fun _ => ⟨size_of_prescale hys, fun _ _ hi _ => h.word_of_prescale hys hi⟩
    | error fault => exact nofun
  · rw [hscaling]
    cases b.prescale xs with
    | ok ys => exact nofun
    | error fault => exact fun _ _ => rfl
  · rw [hconverted, haccepted, h.exists_convert_iff]
  · rw [hconversion]
    cases b.convert xs output <;> rfl
  · rw [hconversion]
    cases b.convert xs output with
    | ok p => exact nofun
    | error fault => exact fun _ _ => rfl
  · rw [hconversion]
    cases hp : b.convert xs output with
    | ok p =>
      rw [hused]
      exact fun _ _ => tail_of_convert hp
    | error fault => exact nofun
  · rw [hscaling]
    cases b.prescale xs <;> rfl
  · rw [hconversion]
    cases b.convert xs output <;> rfl

/-- Two rows of residues modulo 3, 5 and 7 are converted to 11 and 13, in front of a word that is
kept; with a seven as their last word they are left as they were. -/
theorem conversion_outcome_small :
    ∃ b, ofModuli [3, 5, 7] [11, 13] = .ok b ∧
      (b.prescaleInPlace #[1, 2, 3, 2, 4, 7]).2 = #[1, 2, 3, 2, 4, 7] ∧
      ∃ cycles, (b.convertInPlace ⟨#[1, 2, 3, 2, 4, 6], #[0, 0, 0, 0, 9]⟩).1 = .ok cycles ∧
        (b.convertInPlace ⟨#[1, 2, 3, 2, 4, 6], #[0, 0, 0, 0, 9]⟩).2.output[4]? = some 9 := by
  have hok : (ofModuli [3, 5, 7] [11, 13]).isOk = true := by decide +kernel
  obtain ⟨b, hb⟩ := exists_eq_ok_of_isOk hok
  have hreduced : ReducedMatrix [3, 5, 7] #[1, 2, 3, 2, 4, 6] := by
    refine ⟨by decide, fun r i hi x hx => ?_⟩
    obtain ⟨hk, rfl⟩ := Array.getElem?_eq_some_iff.1 hx
    have hr : r < 2 := by simp at hk; omega
    have hi : i < 3 := hi
    interval_cases r <;> interval_cases i <;> simp
  obtain ⟨hscales, -, -, hconverts, -, -, hkept, -⟩ :=
    conversion_outcome hb #[1, 2, 3, 2, 4, 6] #[0, 0, 0, 0, 9]
  obtain ⟨hrefused, -, hleft, -⟩ := conversion_outcome hb #[1, 2, 3, 2, 4, 7] #[]
  obtain ⟨cycles, hcycles⟩ := hconverts.2 ⟨by decide, hscales.2 hreduced, by decide⟩
  refine ⟨b, hb, ?_, cycles, hcycles, (hkept cycles hcycles).2 4 (by decide)⟩
  cases hscaled : (b.prescaleInPlace #[1, 2, 3, 2, 4, 7]).1 with
  | ok _ => exact absurd ((hrefused.1 hscaled).lt 1 2 (by decide) 7 rfl) (by decide)
  | error fault => exact hleft fault hscaled

end BaseConversion

end RnsEngine
