import RnsEngine.Proofs.Systolic.Assertions

/-!
# The registers of the grid

What a cell has in its registers is read off the clock. After `t` cycles the row of the stream that
reached cell `(i, j)` last is `t - 1 - i - j`, if the stream has such a row, and the registers hold
its word and the sum of its products down to this cell (`Grid.CellsAt.registers_of_row`). Before the
first row and after the last they are clear (`Grid.CellsAt.registers_of_no_row`). The foot of column
`j` has kept one row for every cycle after the first `inputs + j`, as long as there are rows, and
the output differs from what it was at most in the words of these rows
(`Grid.CollectedAt.getElem?_of_uncaptured`).
-/

namespace RnsEngine

namespace Grid

variable {s : Shape} {input weights moduli output : Array UInt64}

section Cells

variable {t : ℕ} {grid : Grid s} (h : CellsAt input weights moduli t grid)
  (i : Fin s.inputs) (j : Fin s.outputs)
include h

/-- The registers of a cell that a row of the stream has reached. -/
theorem CellsAt.registers_of_row {r : ℕ} (hr : r < s.rows) (ht : t = i.val + j.val + 1 + r) :
    (grid.cell i j).x = input.getD (r * s.inputs + i) 0 ∧
      (grid.cell i j).sum = ∑ k ∈ Finset.range (i.val + 1),
        (input.getD (r * s.inputs + k) 0).toNat * (weights.getD (k * s.outputs + j) 0).toNat := by
  have hrow : s.rowAt t (i + j + 1) = some r := s.rowAt_eq_some_iff.2 ⟨hr, ht⟩
  simp only [h.cell, cellAt, hrow, Shape.wordOf, Shape.sumOf, Option.elim_some, and_self]

/-- The registers of a cell are clear as long as no row of the stream has reached it, and after the
last row has left it. -/
theorem CellsAt.registers_of_no_row (ht : t < i.val + j.val + 1 ∨ i.val + j.val + 1 + s.rows ≤ t) :
    (grid.cell i j).x = 0 ∧ (grid.cell i j).sum = 0 := by
  have hrow : s.rowAt t (i + j + 1) = none := s.rowAt_eq_none_iff.2 ht
  simp only [h.cell, cellAt, hrow, Shape.wordOf, Shape.sumOf, Option.elim_none, and_self]

end Cells

section Columns

variable {t : ℕ} {state : Vector Collector s.outputs × Array UInt64}
  (h : CollectedAt input weights moduli output (fun _ => t) state)
include h

/-- A column has kept a row when its cycle is over. -/
theorem CollectedAt.lt_captured_iff (j : Fin s.outputs) {r : ℕ} :
    r < (state.1.get j).captured ↔ r < s.rows ∧ s.inputs + j + r < t := by
  rw [h.count j, Shape.counted]
  simp only
  omega

/-- The rows that a column has kept are in their places. -/
theorem CollectedAt.getElem?_of_captured {j : Fin s.outputs} {r : ℕ}
    (hr : r < (state.1.get j).captured) :
    state.2[r * s.outputs + j]? = some (word input weights moduli s r j) := by
  obtain ⟨hrow, ht⟩ := (h.lt_captured_iff j).1 hr
  rw [h.word_eq j r hrow, if_pos ht]

/-- A word of the output that is not the place of a row that has been kept is as before. -/
theorem CollectedAt.getElem?_of_uncaptured {k : ℕ}
    (hk : ∀ (j : Fin s.outputs) r, r < (state.1.get j).captured → k ≠ r * s.outputs + j) :
    state.2[k]? = output[k]? := by
  rcases Nat.lt_or_ge k (s.rows * s.outputs) with hlt | hge
  · -- the word has a row and a column, and this row of the column has not been kept
    let j : Fin s.outputs := ⟨k % s.outputs, Nat.mod_lt _ s.outputs_pos⟩
    have hplace : k / s.outputs * s.outputs + j = k := Nat.div_add_mod' k s.outputs
    have hrow : k / s.outputs < s.rows := (Nat.div_lt_iff_lt_mul s.outputs_pos).2 hlt
    have hlate : ¬ s.inputs + j + k / s.outputs < t := fun ht =>
      hk j _ ((h.lt_captured_iff j).2 ⟨hrow, ht⟩) hplace.symm
    have hword := h.word_eq j (k / s.outputs) hrow
    rwa [if_neg hlate, hplace] at hword
  · exact h.tail_eq k hge

end Columns

/-- **The registers and the clock.** Whatever operands a product accepts, any number of cycles from
rest pass their assertions, step by step, and lead to a state that is known word by word. With
`r = t - 1 - i - j`, cell `(i, j)` holds the word of row `r` of the stream for its row of cells, and
the sum of the products of that row with the column, from the top down to this cell; if the stream
has no row `r`, the registers are clear. The foot of column `j` has kept `t - inputs - j` rows, but
no fewer than none and no more than there are. Those rows are in their places, reduced, and all
other words of the output are as before. After the last cycle the output is that of the product. -/
theorem registers_after {p : Product} (h : multiply s input weights moduli output = .ok p) :
    ∃ grid, install s weights moduli = .ok grid ∧
      p.output = (after input s.cycles (grid, output)).2 ∧
      ∀ t : ℕ, ∃ state : Grid s × Array UInt64,
        after input t (grid, output) = state ∧
        afterInOrder input t (grid, output) = some state ∧
        (∀ (i : Fin s.inputs) (j : Fin s.outputs),
          (∀ r : ℕ, r < s.rows → (r : ℤ) = t - 1 - i.val - j.val →
            input[r * s.inputs + i]? = some (state.1.cell i j).x ∧
              (state.1.cell i j).sum = ∑ k ∈ Finset.range (i.val + 1),
                (input.getD (r * s.inputs + k) 0).toNat *
                  (weights.getD (k * s.outputs + j) 0).toNat) ∧
          ((t : ℤ) - 1 - i.val - j.val < 0 ∨ (s.rows : ℤ) ≤ t - 1 - i.val - j.val →
            (state.1.cell i j).x = 0 ∧ (state.1.cell i j).sum = 0)) ∧
        (∀ j : Fin s.outputs, ((state.1.collectors.get j).captured : ℤ) =
          min (s.rows : ℤ) (max 0 (t - s.inputs - j.val))) ∧
        (∀ (j : Fin s.outputs) (r : ℕ), r < (state.1.collectors.get j).captured →
          ∃ y, state.2[r * s.outputs + j]? = some y ∧
            y.toNat = (∑ k ∈ Finset.range s.inputs, (input.getD (r * s.inputs + k) 0).toNat *
              (weights.getD (k * s.outputs + j) 0).toNat) % (moduli.getD j 0).toNat) ∧
        state.2.size = output.size ∧
        ∀ k, (∀ (j : Fin s.outputs) (r : ℕ), r < (state.1.collectors.get j).captured →
          k ≠ r * s.outputs + j) → state.2[k]? = output[k]? := by
  obtain ⟨haccepts, rfl⟩ := multiply_eq_ok_iff.1 h
  have hinstall : install s weights moduli = .ok (atRest s weights moduli) :=
    install_eq_ok_iff.2 ⟨⟨haccepts.weights_size, haccepts.moduli_size, haccepts.weight_lt,
      haccepts.modulus_ne_zero⟩, rfl⟩
  refine ⟨_, hinstall, rfl, fun t => ⟨_, rfl, afterInOrder_eq haccepts t, ?_⟩⟩
  obtain ⟨hcells, hcollected⟩ := spaceTime_after input weights moduli haccepts.output_size t
  refine ⟨fun i j => ⟨fun r hr hrow => ?_, fun hrow => ?_⟩, fun j => ?_, fun j r hr => ?_,
    hcollected.size_eq, fun k hk => hcollected.getElem?_of_uncaptured hk⟩
  · have hplace : r * s.inputs + i < input.size :=
      Nat.lt_of_lt_of_le (mul_add_lt_mul hr i.isLt) haccepts.input_size
    obtain ⟨hx, hsum⟩ := hcells.registers_of_row i j hr (by omega)
    refine ⟨?_, hsum⟩
    rw [hx, Array.getD_eq_getD_getElem?, Array.getElem?_eq_getElem hplace, Option.getD_some]
  · exact hcells.registers_of_no_row i j (by omega)
  · rw [hcollected.count j, Shape.counted]
    simp only
    omega
  · exact ⟨_, hcollected.getElem?_of_captured hr, toNat_word haccepts r j.isLt⟩

/-- Two rows through a grid of four cells. After three cycles the second row has reached the upper
cell of the second column, the first row the lower one, and the first column has kept one row. -/
theorem registers_after_two_rows :
    let s : Shape := ⟨2, 2, 2, by decide, by decide, by decide, by decide⟩
    ∃ p grid state, multiply s #[1, 2, 3, 4] #[5, 6, 7, 8] #[10, 7] #[0, 0, 0, 0, 9] = .ok p ∧
      install s #[5, 6, 7, 8] #[10, 7] = .ok grid ∧
      afterInOrder #[1, 2, 3, 4] 3 (grid, #[0, 0, 0, 0, 9]) = some state ∧
      (state.1.cell ⟨0, by decide⟩ ⟨1, by decide⟩).sum = 18 ∧
      (state.1.cell ⟨1, by decide⟩ ⟨1, by decide⟩).sum = 22 ∧
      (state.1.cell ⟨0, by decide⟩ ⟨0, by decide⟩).sum = 0 ∧
      (state.1.collectors.get ⟨0, by decide⟩).captured = 1 ∧
      (∃ y, state.2[0]? = some y ∧ y.toNat = 9) ∧ state.2[1]? = some 0 := by
  intro s
  have haccepts : s.Accepts #[1, 2, 3, 4] #[5, 6, 7, 8] #[10, 7] #[0, 0, 0, 0, 9] :=
    ⟨by decide, by decide, by decide, by decide, by decide, by decide, by decide⟩
  have hp := multiply_eq_ok_iff.2 ⟨haccepts, rfl⟩
  obtain ⟨grid, hgrid, -, hstates⟩ := registers_after hp
  obtain ⟨state, -, hrun, hcells, hcaptured, hkept, -, hrest⟩ := hstates 3
  have hfirst : (state.1.collectors.get ⟨0, by decide⟩).captured = 1 :=
    Int.ofNat_inj.1 ((hcaptured ⟨0, by decide⟩).trans (by decide))
  have hsecond : (state.1.collectors.get ⟨1, by decide⟩).captured = 0 :=
    Int.ofNat_inj.1 ((hcaptured ⟨1, by decide⟩).trans (by decide))
  refine ⟨_, grid, state, hp, hgrid, hrun, ?_, ?_, ?_, hfirst, ?_, ?_⟩
  · exact ((hcells ⟨0, by decide⟩ ⟨1, by decide⟩).1 1 (by decide) (by decide)).2
  · exact ((hcells ⟨1, by decide⟩ ⟨1, by decide⟩).1 0 (by decide) (by decide)).2
  · exact ((hcells ⟨0, by decide⟩ ⟨0, by decide⟩).2 (by decide)).2
  · obtain ⟨y, hy, hval⟩ := hkept ⟨0, by decide⟩ 0 (hfirst ▸ Nat.zero_lt_one)
    exact ⟨y, hy, hval.trans (by decide)⟩
  · -- the word belongs to the second column, which has kept nothing yet
    refine hrest 1 fun j r hr => ?_
    match j with
    | ⟨0, _⟩ =>
      have hr : r < 1 := hfirst ▸ hr
      show 1 ≠ r * 2 + 0
      omega
    | ⟨1, _⟩ => exact absurd (hsecond ▸ hr) (Nat.not_lt_zero r)

end Grid

end RnsEngine
