import Mathlib.Algebra.BigOperators.ModEq
import RnsEngine.Proofs.Conversion.Reconstruction
import RnsEngine.Proofs.Systolic.Product

/-!
# What a conversion computes

The numbers of a conversion are given as a matrix of their residues, a row for each number
(`residueMatrix`); the weights are the matrix of the cofactors modulo the target. Scaling makes the
words of a row the factors of a sum of cofactors, which the grid takes modulo every target modulus.

`BaseConversion.convert_congruent` is what follows for every number below the product of the source
moduli: one multiple of the product is added to it in all columns.
-/

namespace RnsEngine

/-- The residues of numbers modulo a list of moduli, a row for each number. -/
def residueMatrix (moduli : List UInt64) (numbers : List ℕ) : Array UInt64 :=
  (numbers.flatMap fun x => moduli.map fun q => UInt64.ofNat (x % q.toNat)).toArray

/-! ### Matrices -/

/-- The entry of a list of equally long rows. -/
theorem getElem?_flatMap {α β : Type} {f : α → List β} {m : ℕ} (hf : ∀ x, (f x).length = m) {j : ℕ}
    (hj : j < m) (xs : List α) :
    ∀ r, (xs.flatMap f)[r * m + j]? = xs[r]?.bind fun x => (f x)[j]? := by
  induction xs with
  | nil => simp
  | cons x xs ih =>
    intro r
    rw [List.flatMap_cons]
    cases r with
    | zero => simp [List.getElem?_append_left, hf, hj]
    | succ r =>
      have hskip : (r + 1) * m + j = (f x).length + (r * m + j) := by
        rw [hf, Nat.succ_mul]
        omega
      rw [hskip, List.getElem?_append_right (Nat.le_add_right _ _), Nat.add_sub_cancel_left, ih,
        List.getElem?_cons_succ]

/-- A matrix of residues has a column for each modulus. -/
theorem size_residueMatrix (moduli : List UInt64) (numbers : List ℕ) :
    (residueMatrix moduli numbers).size = numbers.length * moduli.length := by
  simp [residueMatrix, List.length_flatMap]

/-- The entry of a matrix of residues. -/
theorem getElem?_residueMatrix {moduli : List UInt64} {numbers : List ℕ} {r j x : ℕ} {q : UInt64}
    (hx : numbers[r]? = some x) (hq : moduli[j]? = some q) :
    (residueMatrix moduli numbers)[r * moduli.length + j]? =
      some (UInt64.ofNat (x % q.toNat)) := by
  obtain ⟨hj, -⟩ := List.getElem?_eq_some_iff.1 hq
  rw [residueMatrix, List.getElem?_toArray, getElem?_flatMap (fun _ => List.length_map _) hj, hx,
    Option.bind_some, List.getElem?_map, hq]
  rfl

namespace BaseConversion

variable {b : BaseConversion} {source target : List UInt64}

/-! ### Scaling -/

/-- The first place of a row is a multiple of the number of columns. -/
theorem columnOf_mul_add (r : ℕ) (i : Fin b.source.size) : b.columnOf (r * b.inputs + i) = i :=
  Fin.ext ((Nat.mul_add_mod' r b.inputs i).trans (Nat.mod_eq_of_lt i.isLt))

/-- A word is found fault with when it is not below the modulus of its column. -/
theorem unreduced?_eq_none_iff {k : ℕ} {x : UInt64} :
    b.unreduced? k x = none ↔ x < (b.channel (b.columnOf k)).modulus := by
  rw [← UInt64.not_le]
  change (if (b.channel (b.columnOf k)).modulus ≤ x then some _ else none) = none ↔ _
  split <;> simp [*]

/-- No fault is found with a matrix when every word is reduced in its column. -/
theorem firstUnreduced?_eq_none_iff {xs : Array UInt64} :
    b.firstUnreduced? xs = none ↔
      ∀ k x, xs[k]? = some x → x < (b.channel (b.columnOf k)).modulus := by
  simp only [firstUnreduced?, List.findSome?_eq_none_iff, Prod.forall, List.mem_zipIdx_iff_getElem?,
    Array.getElem?_toList, unreduced?_eq_none_iff]
  exact forall_comm

/-- A matrix is scaled when its rows are complete and its words are reduced. -/
theorem prescale_eq_ok_iff {xs ys : Array UInt64} :
    b.prescale xs = .ok ys ↔
      (xs.size % b.inputs = 0 ∧
        ∀ k x, xs[k]? = some x → x < (b.channel (b.columnOf k)).modulus) ∧
      ys = xs.mapIdx fun k x =>
        (b.channel (b.columnOf k)).mul x (b.inverses.get (b.columnOf k)) := by
  rw [← firstUnreduced?_eq_none_iff, prescale]
  split
  · simp [*]
  · next hsize =>
    rw [not_not] at hsize
    split
    · simp [*]
    · simp only [*, true_and, and_true, Except.ok.injEq]
      exact eq_comm

/-- The cofactor of a column in the list of all. -/
theorem getElem?_cofactors (i : Fin b.source.size) :
    (b.source.toList.map (cofactor b.source))[i.val]? = some (b.cofactorAt i) := by
  rw [List.getElem?_map, Array.getElem?_toList, Array.getElem?_eq_getElem i.isLt]
  rfl

namespace Converts

variable (h : b.Converts source target)
include h

/-- The residues of numbers are scaled to their factors. -/
theorem prescale (xs : List ℕ) :
    ∃ scaled, b.prescale (residueMatrix source xs) = .ok scaled ∧
      scaled.size = xs.length * b.inputs ∧
      ∀ r (hr : r < xs.length) (i : Fin b.source.size),
        scaled.getD (r * b.inputs + i) 0 = b.factor xs[r] i := by
  have hsize : (residueMatrix source xs).size = xs.length * b.inputs := by
    rw [size_residueMatrix, h.length_source]
  have hword : ∀ r (hr : r < xs.length) (i : Fin b.source.size),
      (residueMatrix source xs)[r * b.inputs + i]? = some ((b.channel i).word xs[r]) := by
    intro r hr i
    rw [← h.length_source]
    exact getElem?_residueMatrix (List.getElem?_eq_getElem hr) (h.getElem?_source i)
  refine ⟨_, prescale_eq_ok_iff.2 ⟨⟨?_, ?_⟩, rfl⟩, ?_, fun r hr i => ?_⟩
  · rw [hsize, Nat.mul_mod_left]
  · suffices hplace : ∀ k < xs.length * b.inputs, ∀ x, (residueMatrix source xs)[k]? = some x →
        x < (b.channel (b.columnOf k)).modulus by
      intro k x hx
      exact hplace k (hsize ▸ (Array.getElem?_eq_some_iff.1 hx).1) x hx
    refine forall_lt_mul fun r hr i hi x hx => ?_
    rw [hword r hr ⟨i, hi⟩] at hx
    obtain rfl := Option.some.inj hx
    rw [b.columnOf_mul_add r ⟨i, hi⟩]
    exact Channel.word_lt _ _
  · rw [Array.size_mapIdx, hsize]
  · rw [Array.getD_eq_getD_getElem?, Array.getElem?_mapIdx, hword r hr i, Option.map_some,
      Option.getD_some, columnOf_mul_add]
    rfl

/-! ### The weights -/

/-- The weights are the residues of the cofactors modulo the target. -/
theorem weights_eq :
    b.weights = residueMatrix target (b.source.toList.map (cofactor b.source)) := by
  refine Array.toList_inj.1 ?_
  simp only [weights, residueMatrix, ← h.target_eq, Array.toList_flatMap, Array.toList_map,
    List.flatMap_map, List.map_map]
  rfl

/-- A weight is a cofactor as a word of the target. -/
theorem weight_eq (i : Fin b.source.size) {j : ℕ} (hj : j < b.outputs) :
    ∃ p : Channel, b.targetModuli.getD j 0 = p.modulus ∧
      b.weights.getD (i * b.outputs + j) 0 = p.word (b.cofactorAt i) := by
  obtain ⟨p, hp, hcolumn⟩ := h.getElem?_target hj
  refine ⟨p, hcolumn, ?_⟩
  rw [h.weights_eq, ← h.length_target, Array.getD_eq_getD_getElem?,
    getElem?_residueMatrix (getElem?_cofactors i) hp]
  rfl

/-- A row of words times the weights is, modulo a target modulus, the sum of the cofactors. -/
theorem sum_weights_mod (row : ℕ → ℕ) {j : ℕ} (hj : j < b.outputs) :
    (∑ k ∈ Finset.range b.inputs, row k * (b.weights.getD (k * b.outputs + j) 0).toNat) %
        (b.targetModuli.getD j 0).toNat =
      (∑ i : Fin b.source.size, row i * b.cofactorAt i) % (b.targetModuli.getD j 0).toNat := by
  rw [inputs, Finset.sum_range]
  refine Nat.ModEq.sum fun i _ => Nat.ModEq.mul_left _ ?_
  obtain ⟨p, hcolumn, hweight⟩ := h.weight_eq i hj
  rw [hcolumn, hweight, p.toNat_word]
  exact Nat.mod_modEq _ _

/-! ### The conversion -/

/-- The shape of the product for so many numbers. -/
def shape (rows : ℕ) (hrows : 0 < rows) : Shape where
  rows := rows
  inputs := b.inputs
  outputs := b.outputs
  rows_pos := hrows
  inputs_pos := b.inputs_pos
  outputs_pos := h.outputs_pos
  inputs_le := h.inputs_le

/-- The grid accepts reduced words and the weights. -/
theorem accepts {rows : ℕ} (hrows : 0 < rows) {scaled output : Array UInt64}
    (hsize : scaled.size = rows * b.inputs)
    (hlt : ∀ r < rows, ∀ i : Fin b.source.size,
      scaled.getD (r * b.inputs + i) 0 < (b.channel i).modulus)
    (hroom : rows * b.outputs ≤ output.size) :
    (h.shape rows hrows).Accepts scaled b.weights b.targetModuli output where
  weights_size := by
    rw [h.weights_eq, size_residueMatrix, List.length_map, h.length_target]
    exact Nat.le_refl _
  moduli_size := by
    rw [targetModuli, Array.size_map]
    exact Nat.le_refl _
  input_size := Nat.le_of_eq hsize.symm
  output_size := hroom
  weight_lt := by
    refine forall_lt_mul fun i hi j hj => ?_
    obtain ⟨p, -, hweight⟩ := h.weight_eq ⟨i, hi⟩ hj
    exact UInt64.lt_trans (hweight ▸ p.word_lt _) p.lt_bound
  modulus_ne_zero := by
    intro j hj hzero
    obtain ⟨p, -, hp⟩ := h.getElem?_target hj
    have htwo := p.two_le
    rw [← hp, hzero] at htwo
    exact absurd htwo (by decide)
  input_lt := forall_lt_mul fun r hr i hi =>
    UInt64.lt_trans (hlt r hr ⟨i, hi⟩) (b.channel ⟨i, hi⟩).lt_bound

/-- The residues of numbers are converted to those of the sums of their factors. -/
theorem convert {xs : List ℕ} (hne : xs ≠ []) {output : Array UInt64}
    (hroom : xs.length * b.outputs ≤ output.size) :
    ∃ p, b.convert (residueMatrix source xs) output = .ok p ∧
      ∀ r (hr : r < xs.length), ∀ j < b.outputs,
        (p.output.getD (r * b.outputs + j) 0).toNat =
          (∑ i, (b.factor xs[r] i).toNat * b.cofactorAt i) %
            (b.targetModuli.getD j 0).toNat := by
  have hrows : 0 < xs.length := List.length_pos_of_ne_nil hne
  obtain ⟨scaled, hscaled, hsize, hfactor⟩ := h.prescale xs
  have hlt : ∀ r < xs.length, ∀ i : Fin b.source.size,
      scaled.getD (r * b.inputs + i) 0 < (b.channel i).modulus := by
    intro r hr i
    rw [hfactor r hr i]
    exact h.invertible.factor_lt _ i
  obtain ⟨p, hp, hword⟩ := Grid.exists_multiply (h.accepts hrows hsize hlt hroom)
  have hshape : Shape.ofDims (scaled.size / b.inputs) b.inputs b.outputs =
      .ok (h.shape xs.length hrows) := by
    rw [hsize, Nat.mul_div_cancel _ b.inputs_pos, Shape.ofDims_eq_ok_iff]
    exact ⟨rfl, rfl, rfl⟩
  refine ⟨p, bind_eq_ok_iff.2 ⟨scaled, hscaled, bind_eq_ok_iff.2 ⟨_, hshape, hp⟩⟩,
    fun r hr j hj => ?_⟩
  simp only [← hfactor r hr]
  exact (hword r hr j hj).trans (h.sum_weights_mod _ hj)

end Converts

/-- **Conversion between bases.** A conversion between any bases for which one is built accepts the
residues of any numbers below the product of the source moduli, into any output with enough words.
In every row one and the same multiple of the product is added to the number, less often than there
are source moduli, and the row is left with the residues of the sum modulo the target. So they are
the residues of the number itself wherever the target modulus divides the product, and everywhere
when there is only one source modulus. -/
theorem convert_congruent (hb : ofModuli source target = .ok b) {xs : List ℕ} (hne : xs ≠ [])
    (hlt : ∀ x ∈ xs, x < (source.map (·.toNat)).prod) {output : Array UInt64}
    (hroom : xs.length * target.length ≤ output.size) :
    ∃ p, b.convert (residueMatrix source xs) output = .ok p ∧
      ∀ r (hr : r < xs.length), ∃ α < source.length, ∀ j (hj : j < target.length),
        let word := (p.output.getD (r * target.length + j) 0).toNat
        word = (xs[r] + α * (source.map (·.toNat)).prod) % target[j].toNat ∧
          (target[j].toNat ∣ (source.map (·.toNat)).prod ∨ source.length = 1 →
            word = xs[r] % target[j].toNat) := by
  have h := converts_of_ofModuli hb
  rw [h.length_target] at hroom
  obtain ⟨p, hp, hword⟩ := h.convert hne hroom
  refine ⟨p, hp, fun r hr => ?_⟩
  rw [← h.modulus_eq] at hlt ⊢
  obtain ⟨α, hα, hsum⟩ := h.invertible.exists_sum_eq (hlt _ (List.getElem_mem hr))
  rw [← h.length_source] at hα
  refine ⟨α, hα, fun j hj => ?_⟩
  have hcolumn : j < b.outputs := h.length_target ▸ hj
  have htarget : target[j] = b.targetModuli.getD j 0 := by
    obtain ⟨q, hq, hmodulus⟩ := h.getElem?_target hcolumn
    rw [hmodulus, ← Option.some.injEq, ← hq, List.getElem?_eq_getElem hj]
  have hsame : (p.output.getD (r * target.length + j) 0).toNat =
      (xs[r] + α * b.modulus) % target[j].toNat := by
    rw [htarget, ← hsum, h.length_target]
    exact hword r hr j hcolumn
  refine ⟨hsame, fun hexact => hsame.trans ?_⟩
  rcases hexact with ⟨c, hc⟩ | hone
  · rw [hc, Nat.mul_left_comm, Nat.add_mul_mod_self_left]
  · rw [hone, Nat.lt_one_iff] at hα
    rw [hα, Nat.zero_mul, Nat.add_zero]

/-- The number 52 from the moduli 3, 5, 7 to 11, 13 and 15, the last of which divides 105. -/
theorem convert_congruent_small :
    ∃ b, ofModuli [3, 5, 7] [11, 13, 15] = .ok b ∧
      ∃ p, b.convert (residueMatrix [3, 5, 7] [52]) #[0, 0, 0] = .ok p ∧
        (∃ α < 3, (p.output.getD 0 0).toNat = (52 + α * 105) % 11 ∧
          (p.output.getD 1 0).toNat = (52 + α * 105) % 13) ∧
        (p.output.getD 2 0).toNat = 7 := by
  have hok : (ofModuli [3, 5, 7] [11, 13, 15]).isOk = true := by decide +kernel
  obtain ⟨b, hb⟩ := exists_eq_ok_of_isOk hok
  obtain ⟨p, hp, hrows⟩ := @convert_congruent b _ _ hb [52] (by decide) (by decide) #[0, 0, 0]
    (by decide)
  obtain ⟨α, hα, hwords⟩ := hrows 0 (by decide)
  have hexact := (hwords 2 (by decide)).2 (.inl (by decide))
  exact ⟨b, hb, p, hp, ⟨α, hα, (hwords 0 (by decide)).1, (hwords 1 (by decide)).1⟩, hexact⟩

end BaseConversion

end RnsEngine
