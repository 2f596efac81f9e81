import Mathlib.Algebra.Order.BigOperators.Group.Finset
import Mathlib.Data.List.GetD
import RnsEngine.Proofs.Refusal
import RnsEngine.Proofs.Systolic.SpaceTime

/-!
# What the grid computes

The operands of a product are accepted when the buffers are long enough, the words of both matrices
are small enough for the accumulators, and no modulus is zero: `Shape.Accepts`. Exactly then a run
takes place (`Grid.multiply_eq_ok_iff`), and no accumulator overflows in it (`Grid.accumulator_lt`).

`Grid.multiply_eq_sum` is the product that a run leaves, with the cycle in which every word of it is
written.
-/

namespace RnsEngine

/-! ### Places of a matrix -/

/-- The place of an entry is inside a matrix of so many rows. -/
theorem mul_add_lt_mul {rows columns r j : ℕ} (hr : r < rows) (hj : j < columns) :
    r * columns + j < rows * columns := by
  rw [Nat.mul_comm r]
  exact Nat.mul_add_lt_mul_of_lt_of_lt hr hj

/-- What holds at every row and column holds at every place of a matrix. -/
theorem forall_lt_mul {rows columns : ℕ} {P : ℕ → Prop}
    (h : ∀ r < rows, ∀ j < columns, P (r * columns + j)) : ∀ k < rows * columns, P k := by
  intro k hk
  rw [← Nat.div_add_mod' k columns]
  exact h _ ((Nat.div_lt_iff_lt_mul (Nat.pos_of_mul_pos_left (Nat.zero_lt_of_lt hk))).2 hk) _
    (Nat.mod_lt _ (Nat.pos_of_mul_pos_left (Nat.zero_lt_of_lt hk)))

/-- The operands that a product accepts. -/
structure Shape.Accepts (s : Shape) (input weights moduli output : Array UInt64) : Prop where
  weights_size : s.inputs * s.outputs ≤ weights.size
  moduli_size : s.outputs ≤ moduli.size
  input_size : s.rows * s.inputs ≤ input.size
  output_size : s.rows * s.outputs ≤ output.size
  weight_lt : ∀ k < s.inputs * s.outputs, weights.getD k 0 < modulusBound
  modulus_ne_zero : ∀ j < s.outputs, moduli.getD j 0 ≠ 0
  input_lt : ∀ k < s.rows * s.inputs, input.getD k 0 < modulusBound

namespace Grid

variable {s : Shape} {input weights moduli output : Array UInt64}

/-! ### Checks -/

/-- What holds of the leading words of a buffer holds of each by its index. -/
theorem forall_mem_take_iff {words : Array UInt64} {count : ℕ} (hsize : count ≤ words.size)
    {P : UInt64 → Prop} :
    (∀ x ∈ words.toList.take count, P x) ↔ ∀ k < count, P (words.getD k 0) := by
  have hget : ∀ k, k < count → words.getD k 0 = (words.toList.take count).getD k 0 := by
    intro k hk
    have hlt : k < words.size := Nat.lt_of_lt_of_le hk hsize
    simp [Array.getD_eq_getD_getElem?, hlt, hk]
  have hlength : (words.toList.take count).length = count := by
    simp [Nat.min_eq_left hsize]
  constructor
  · intro h k hk
    rw [hget k hk, List.getD_eq_getElem _ _ (by rwa [hlength])]
    exact h _ (List.getElem_mem _)
  · intro h x hx
    obtain ⟨k, hk, rfl⟩ := List.mem_iff_getElem.1 hx
    have hlt : k < count := by rwa [hlength] at hk
    rw [← List.getD_eq_getElem _ 0 hk, ← hget k hlt]
    exact h k hlt

/-- The check of a size passes when there are enough words. -/
theorem checkSize_eq_ok_iff {role : Role} {expected : ℕ} {words : Array UInt64} :
    checkSize role expected words = .ok () ↔ expected ≤ words.size := by
  rw [checkSize, ← Nat.not_lt]
  split <;> simp [*]

/-- The check of operands passes when all leading words are small enough. -/
theorem checkOperands_eq_ok_iff {role : Role} {count : ℕ} {words : Array UInt64}
    (hsize : count ≤ words.size) :
    checkOperands role count words = .ok () ↔ ∀ k < count, words.getD k 0 < modulusBound := by
  have hnone : checkOperands role count words = .ok () ↔ firstTooLarge? words count = none := by
    rw [checkOperands]
    split <;> simp [*]
  rw [hnone, firstTooLarge?, List.find?_eq_none]
  simp only [decide_eq_true_eq, UInt64.not_le]
  exact forall_mem_take_iff hsize

/-- The check of the moduli passes when none of them is zero. -/
theorem contains_zero_iff (hsize : s.outputs ≤ moduli.size) :
    (moduli.toList.take s.outputs).contains 0 = false ↔ ∀ j < s.outputs, moduli.getD j 0 ≠ 0 := by
  rw [← forall_mem_take_iff hsize (P := fun x => x ≠ 0), ← Bool.not_eq_true,
    List.contains_iff_mem]
  constructor
  · intro h x hx hzero
    exact h (hzero ▸ hx)
  · intro h hmem
    exact h 0 hmem rfl

/-- A grid is installed when the weights and the moduli are accepted, and then it is at rest. -/
theorem install_eq_ok_iff {grid : Grid s} :
    install s weights moduli = .ok grid ↔
      (s.inputs * s.outputs ≤ weights.size ∧ s.outputs ≤ moduli.size ∧
        (∀ k < s.inputs * s.outputs, weights.getD k 0 < modulusBound) ∧
        ∀ j < s.outputs, moduli.getD j 0 ≠ 0) ∧ grid = atRest s weights moduli := by
  unfold install
  simp only [bind_eq_ok_iff]
  constructor
  · rintro ⟨⟨⟩, hweights, ⟨⟩, hmoduli, ⟨⟩, hoperands, h⟩
    rw [checkSize_eq_ok_iff] at hweights hmoduli
    rw [checkOperands_eq_ok_iff hweights] at hoperands
    split at h
    · cases h
    · next hzero =>
      rw [Bool.not_eq_true, contains_zero_iff hmoduli] at hzero
      exact ⟨⟨hweights, hmoduli, hoperands, hzero⟩, (Except.ok.inj h).symm⟩
  · rintro ⟨⟨hweights, hmoduli, hoperands, hzero⟩, rfl⟩
    rw [← contains_zero_iff hmoduli, ← Bool.not_eq_true] at hzero
    refine ⟨(), checkSize_eq_ok_iff.2 hweights, (), checkSize_eq_ok_iff.2 hmoduli, (),
      (checkOperands_eq_ok_iff hweights).2 hoperands, ?_⟩
    rw [if_neg hzero]
    rfl

/-- A product is computed when its operands are accepted, and then it is what a run from rest leaves
after the cycles of its shape. -/
theorem multiply_eq_ok_iff {p : Product} :
    multiply s input weights moduli output = .ok p ↔
      s.Accepts input weights moduli output ∧
        p = ⟨s.cycles, (after input s.cycles (atRest s weights moduli, output)).2⟩ := by
  unfold multiply run
  simp only [bind_eq_ok_iff, install_eq_ok_iff]
  constructor
  · rintro ⟨_, ⟨⟨hweights, hmoduli, hweight, hzero⟩, rfl⟩, ⟨⟩, hinput, ⟨⟩, houtput, ⟨⟩, hword, h⟩
    rw [checkSize_eq_ok_iff] at hinput houtput
    rw [checkOperands_eq_ok_iff hinput] at hword
    exact ⟨⟨hweights, hmoduli, hinput, houtput, hweight, hzero, hword⟩, (Except.ok.inj h).symm⟩
  · rintro ⟨⟨hweights, hmoduli, hinput, houtput, hweight, hzero, hword⟩, rfl⟩
    exact ⟨_, ⟨⟨hweights, hmoduli, hweight, hzero⟩, rfl⟩, (), checkSize_eq_ok_iff.2 hinput, (),
      checkSize_eq_ok_iff.2 houtput, (), (checkOperands_eq_ok_iff hinput).2 hword, rfl⟩

/-! ### Accumulators -/

/-- A product of two words below the bound is below the square of the bound. -/
theorem sumOf_lt (h : s.Accepts input weights moduli output) (row : Option ℕ)
    (hrow : ∀ r, row = some r → r < s.rows) {j m : ℕ} (hj : j < s.outputs) (hm : m ≤ s.inputs) :
    s.sumOf input weights row j m < 2 ^ 128 := by
  cases row with
  | none => exact Nat.two_pow_pos 128
  | some r =>
    have hr : r < s.rows := hrow r rfl
    have hterm : ∀ k ∈ Finset.range m,
        (input.getD (r * s.inputs + k) 0).toNat * (weights.getD (k * s.outputs + j) 0).toNat ≤
          (2 ^ 62 - 1) * (2 ^ 62 - 1) := by
      intro k hk
      have hk : k < s.inputs := Nat.lt_of_lt_of_le (Finset.mem_range.1 hk) hm
      have hxlt := UInt64.lt_iff_toNat_lt.1 (h.input_lt _ (mul_add_lt_mul hr hk))
      have hwlt := UInt64.lt_iff_toNat_lt.1 (h.weight_lt _ (mul_add_lt_mul hk hj))
      rw [toNat_modulusBound] at hxlt hwlt
      exact Nat.mul_le_mul (by omega) (by omega)
    have hsum := Finset.sum_le_card_nsmul _ _ _ hterm
    rw [Finset.card_range, Nat.nsmul_eq_mul] at hsum
    have hle : m * ((2 ^ 62 - 1) * (2 ^ 62 - 1)) ≤ 16 * ((2 ^ 62 - 1) * (2 ^ 62 - 1)) :=
      Nat.mul_le_mul_right _ (Nat.le_trans hm s.inputs_le)
    exact Nat.lt_of_le_of_lt (Nat.le_trans hsum hle) (by decide)

/-- No accumulator overflows, after any number of cycles. -/
theorem accumulator_lt (h : s.Accepts input weights moduli output) (t : ℕ) (i : Fin s.inputs)
    (j : Fin s.outputs) :
    ((after input t (atRest s weights moduli, output)).1.cell i j).sum < 2 ^ 128 := by
  rw [(spaceTime_after input weights moduli h.output_size t).cells.cell i j]
  exact sumOf_lt h _ (fun r hrow => (s.rowAt_eq_some_iff.1 hrow).1) j.isLt i.isLt

/-! ### The product -/

/-- The word of a product is the exact remainder. -/
theorem toNat_word (h : s.Accepts input weights moduli output) (r : ℕ) {j : ℕ}
    (hj : j < s.outputs) :
    (word input weights moduli s r j).toNat =
      (∑ k ∈ Finset.range s.inputs, (input.getD (r * s.inputs + k) 0).toNat *
        (weights.getD (k * s.outputs + j) 0).toNat) % (moduli.getD j 0).toNat := by
  have hpos : 0 < (moduli.getD j 0).toNat := by
    refine Nat.pos_of_ne_zero fun hzero => h.modulus_ne_zero j hj ?_
    exact UInt64.toNat_inj.1 hzero
  have hlt := Nat.lt_trans (Nat.mod_lt (s.sumOf input weights (some r) j s.inputs) hpos)
    (moduli.getD j 0).toNat_lt
  rw [word, UInt64.toNat_ofNat', Nat.mod_eq_of_lt hlt]
  rfl

/-- Accepted operands have a product, with the exact remainder in every place. -/
theorem exists_multiply (h : s.Accepts input weights moduli output) :
    ∃ p, multiply s input weights moduli output = .ok p ∧
      ∀ r < s.rows, ∀ j < s.outputs, (p.output.getD (r * s.outputs + j) 0).toNat =
        (∑ k ∈ Finset.range s.inputs, (input.getD (r * s.inputs + k) 0).toNat *
          (weights.getD (k * s.outputs + j) 0).toNat) % (moduli.getD j 0).toNat := by
  refine ⟨_, multiply_eq_ok_iff.2 ⟨h, rfl⟩, fun r hr j hj => ?_⟩
  have hlate : s.inputs + j + r < s.cycles := by
    rw [Shape.cycles]
    omega
  have hword :=
    (spaceTime_after input weights moduli h.output_size s.cycles).collected.word_eq ⟨j, hj⟩ r hr
  rw [if_pos hlate] at hword
  rw [Array.getD_eq_getD_getElem?, hword, Option.getD_some]
  exact toNat_word h r hj

/-- **The product of the grid.** A product is computed exactly on accepted operands. It takes as
many cycles as there are inputs, outputs and rows, and leaves in row `r` and column `j` the exact
remainder of the sum of products, and every other word as it was. That word is written in the cycle
with number `inputs + j + r` and in no other: after `t` cycles it is in its place when `t` is
greater, and the old word when not, and the collector of the column has kept as many sums as there
are rows whose cycle has passed. No accumulator overflows on the way. -/
theorem multiply_eq_sum (s : Shape) (input weights moduli output : Array UInt64) :
    ((∃ p, multiply s input weights moduli output = .ok p) ↔
      s.Accepts input weights moduli output) ∧
    ∀ p, multiply s input weights moduli output = .ok p →
      p.cycles = s.inputs + s.outputs + s.rows ∧ p.output.size = output.size ∧
      (∀ r < s.rows, ∀ j < s.outputs, (p.output.getD (r * s.outputs + j) 0).toNat =
        (∑ k ∈ Finset.range s.inputs, (input.getD (r * s.inputs + k) 0).toNat *
          (weights.getD (k * s.outputs + j) 0).toNat) % (moduli.getD j 0).toNat) ∧
      (∀ k, s.rows * s.outputs ≤ k → p.output[k]? = output[k]?) ∧
      ∃ grid, install s weights moduli = .ok grid ∧
        (after input s.cycles (grid, output)).2 = p.output ∧
        ∀ (t : ℕ) (j : Fin s.outputs),
          let state := after input t (grid, output)
          (∀ i : Fin s.inputs, (state.1.cell i j).sum < 2 ^ 128) ∧
            (state.1.collectors.get j).captured = min (t - (s.inputs + j)) s.rows ∧
            ∀ r < s.rows, state.2[r * s.outputs + j]? =
              if s.inputs + j + r < t then p.output[r * s.outputs + j]?
              else output[r * s.outputs + j]? := by
  refine ⟨⟨fun ⟨p, hp⟩ => (multiply_eq_ok_iff.1 hp).1, fun h => ⟨_, multiply_eq_ok_iff.2 ⟨h, rfl⟩⟩⟩,
    fun p hp => ?_⟩
  obtain ⟨h, rfl⟩ := multiply_eq_ok_iff.1 hp
  have hafter := fun t => spaceTime_after input weights moduli h.output_size t
  -- the run is long enough for the last row to arrive in every column
  have hfinal : ∀ (j : Fin s.outputs) (r : ℕ), r < s.rows →
      (after input s.cycles (atRest s weights moduli, output)).2[r * s.outputs + j]? =
        some (word input weights moduli s r j) := by
    intro j r hr
    have hlate : s.inputs + j + r < s.cycles := by
      have := j.isLt
      rw [Shape.cycles]
      omega
    rw [(hafter s.cycles).collected.word_eq j r hr, if_pos hlate]
  refine ⟨?_, (hafter _).collected.size_eq, fun r hr j hj => ?_, (hafter _).collected.tail_eq,
    atRest s weights moduli, ?_, rfl, fun t j => ⟨fun i => accumulator_lt h t i j, ?_, ?_⟩⟩
  · simp only [Shape.cycles, Nat.add_comm s.outputs]
  · rw [Array.getD_eq_getD_getElem?, hfinal ⟨j, hj⟩ r hr, Option.getD_some]
    exact toNat_word h r hj
  · exact install_eq_ok_iff.2
      ⟨⟨h.weights_size, h.moduli_size, h.weight_lt, h.modulus_ne_zero⟩, rfl⟩
  · exact congrArg Collector.captured ((hafter t).collected.count j)
  · intro r hr
    rw [(hafter t).collected.word_eq j r hr, hfinal j r hr]

/-- Two rows through a grid of four cells, over an output with one word more. -/
theorem multiply_two_rows :
    ∃ p, multiply ⟨2, 2, 2, by decide, by decide, by decide, by decide⟩ #[1, 2, 3, 4]
        #[5, 6, 7, 8] #[10, 7] #[0, 0, 0, 0, 9] = .ok p ∧ p.cycles = 6 ∧
      (p.output.getD 2 0).toNat = 3 ∧ (p.output.getD 3 0).toNat = 1 ∧ p.output[4]? = some 9 := by
  let s : Shape := ⟨2, 2, 2, by decide, by decide, by decide, by decide⟩
  have haccepts : s.Accepts #[1, 2, 3, 4] #[5, 6, 7, 8] #[10, 7] #[0, 0, 0, 0, 9] :=
    ⟨by decide, by decide, by decide, by decide, by decide, by decide, by decide⟩
  obtain ⟨hiff, hproduct⟩ :=
    multiply_eq_sum s #[1, 2, 3, 4] #[5, 6, 7, 8] #[10, 7] #[0, 0, 0, 0, 9]
  obtain ⟨p, hp⟩ := hiff.2 haccepts
  obtain ⟨hcycles, -, hwords, htail, -⟩ := hproduct p hp
  refine ⟨p, hp, hcycles, ?_, ?_, htail 4 (by decide)⟩
  · exact (hwords 1 (by decide) 0 (by decide)).trans (by decide)
  · exact (hwords 1 (by decide) 1 (by decide)).trans (by decide)

end Grid

end RnsEngine
