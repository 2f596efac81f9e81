import RnsEngine.Proofs.Systolic.Cells

/-!
# Where everything is after so many cycles

After `t` cycles a collector has let pass and kept as many sums as its column has delivered
(`Shape.counted`), and the output holds the words of exactly the rows that were kept: the word in
row `r` and column `j` is written in the cycle with number `inputs + j + r` and in no other.

The columns are collected one after the other, each with its own clock; `Grid.CollectedAt` is what
holds in between. With the cells and links it makes the invariant `Grid.SpaceTime`, which every
cycle carries on (`Grid.SpaceTime.cycle`), and which therefore holds after any number of cycles
(`Grid.spaceTime_after`).
-/

namespace RnsEngine

variable {s : Shape}

/-- What the collector of a column has counted after so many cycles. -/
def Shape.counted (s : Shape) (t j : ℕ) : Collector :=
  { discarded := min t (s.inputs + j), captured := min (t - (s.inputs + j)) s.rows }

/-- Different places of the output have different addresses. -/
theorem Shape.place_inj (s : Shape) {r r' : ℕ} {j j' : Fin s.outputs}
    (h : r * s.outputs + j.val = r' * s.outputs + j'.val) : r = r' ∧ j = j' := by
  have hmod := congrArg (· % s.outputs) h
  simp only [Nat.mul_add_mod_self_right, Nat.mod_eq_of_lt j.isLt, Nat.mod_eq_of_lt j'.isLt] at hmod
  rw [hmod] at h
  exact ⟨Nat.eq_of_mul_eq_mul_right s.outputs_pos (Nat.add_right_cancel h), Fin.ext hmod⟩

/-- The word of a row in a column of the output lies among the leading ones. -/
theorem Shape.place_lt (s : Shape) {r : ℕ} (hr : r < s.rows) (j : Fin s.outputs) :
    r * s.outputs + j.val < s.rows * s.outputs := by
  rw [Nat.mul_comm r]
  exact Nat.mul_add_lt_mul_of_lt_of_lt hr j.isLt

namespace Grid

variable (input weights moduli before : Array UInt64)

/-- The word of the product in a row and a column: the whole sum, reduced modulo the modulus of the
column. -/
def word (s : Shape) (r j : ℕ) : UInt64 :=
  UInt64.ofNat (s.sumOf input weights (some r) j s.inputs % (moduli.getD j 0).toNat)

/-! ### Collecting -/

/-- The collectors and the output when every column has been collected as often as its clock says.
-/
structure CollectedAt (clock : Fin s.outputs → ℕ)
    (state : Vector Collector s.outputs × Array UInt64) : Prop where
  count : ∀ j : Fin s.outputs, state.1.get j = s.counted (clock j) j
  word_eq : ∀ (j : Fin s.outputs) (r : ℕ), r < s.rows → state.2[r * s.outputs + j]? =
    if s.inputs + j + r < clock j then some (word input weights moduli s r j)
    else before[r * s.outputs + j]?
  tail_eq : ∀ k, s.rows * s.outputs ≤ k → state.2[k]? = before[k]?
  size_eq : state.2.size = before.size

variable {input weights moduli before}

/-- What a collector does with the sum of a cycle: it counts it, and writes it if a row of the
stream arrives. -/
theorem collect_counted (j : Fin s.outputs) (sum : ℕ) (modulus : UInt64) (t : ℕ)
    (output : Array UInt64) :
    collect s j sum modulus (s.counted t j) output =
      (s.counted (t + 1) j, match s.rowAt t (s.inputs + j) with
        | some r => output.setIfInBounds (r * s.outputs + j) (UInt64.ofNat (sum % modulus.toNat))
        | none => output) := by
  unfold collect Shape.counted
  cases hrow : s.rowAt t (s.inputs + j) with
  | some r =>
    obtain ⟨hr, rfl⟩ := s.rowAt_eq_some_iff.1 hrow
    have hcaptured : min (s.inputs + j.val + r - (s.inputs + j.val)) s.rows = r := by omega
    rw [if_neg (by simp only; omega), if_pos (by simp only; omega)]
    simp only [hcaptured, Prod.mk.injEq, Collector.mk.injEq, and_true]
    omega
  | none =>
    rcases s.rowAt_eq_none_iff.1 hrow with hearly | hlate
    · rw [if_pos (by simp only; omega)]
      simp only [Prod.mk.injEq, Collector.mk.injEq, and_true]
      omega
    · rw [if_neg (by simp only; omega), if_neg (by simp only; omega)]
      simp only [Prod.mk.injEq, Collector.mk.injEq, and_true]
      omega

/-- Collecting the sum that a column delivers advances its clock by one. -/
theorem CollectedAt.column {clock : Fin s.outputs → ℕ}
    {state : Vector Collector s.outputs × Array UInt64}
    (h : CollectedAt input weights moduli before clock state)
    (hroom : s.rows * s.outputs ≤ before.size) (j : Fin s.outputs) (clock' : Fin s.outputs → ℕ)
    (hclock : clock' j = clock j + 1) (hothers : ∀ l, l ≠ j → clock' l = clock l) :
    CollectedAt input weights moduli before clock'
      (collectColumn j (s.sumOf input weights (s.rowAt (clock j) (s.inputs + j)) j s.inputs)
        (moduli.getD j 0) state) := by
  obtain ⟨collectors, output⟩ := state
  obtain ⟨hcount, hword, htail, hsize⟩ := h
  have hcounts : ∀ l : Fin s.outputs,
      (collectors.set j.val (s.counted (clock j + 1) j) j.isLt).get l = s.counted (clock' l) l := by
    intro l
    by_cases hl : l = j
    · subst hl
      rw [hclock]
      exact Vector.getElem_set_self _
    · have hne : j.val ≠ l.val := fun hval => hl (Fin.ext hval.symm)
      rw [hothers l hl]
      exact (Vector.getElem_set_ne _ _ hne).trans (hcount l)
  have hcollect := collect_counted j
    (s.sumOf input weights (s.rowAt (clock j) (s.inputs + j)) j s.inputs) (moduli.getD j 0)
    (clock j) output
  rw [← hcount j] at hcollect
  rw [collectColumn, hcollect]
  -- the output changes only in a cycle in which a row of the stream arrives
  cases hrow : s.rowAt (clock j) (s.inputs + j) with
  | none =>
    refine ⟨hcounts, fun l r hr => ?_, htail, hsize⟩
    rw [hword l r hr]
    by_cases hl : l = j
    · subst hl
      have hiff : s.inputs + l + r < clock' l ↔ s.inputs + l + r < clock l := by
        rcases s.rowAt_eq_none_iff.1 hrow with hearly | hlate <;> omega
      simp only [hiff]
    · rw [hothers l hl]
  | some r₀ =>
    obtain ⟨hr₀, htime⟩ := s.rowAt_eq_some_iff.1 hrow
    have hplace := s.place_lt hr₀ j
    refine ⟨hcounts, fun l r hr => ?_, fun k hk => ?_, ?_⟩
    · by_cases hl : l = j ∧ r = r₀
      · obtain ⟨rfl, rfl⟩ := hl
        have hsize' : output.size = before.size := hsize
        simp only [Array.getElem?_setIfInBounds_self]
        rw [if_pos (by omega), if_pos (by omega)]
        rfl
      · have hne : r₀ * s.outputs + j.val ≠ r * s.outputs + l.val := by
          intro heq
          obtain ⟨hr', hj⟩ := s.place_inj heq
          exact hl ⟨hj.symm, hr'.symm⟩
        simp only [Array.getElem?_setIfInBounds_ne hne, hword l r hr]
        by_cases hl' : l = j
        · subst hl'
          have hrow' : r ≠ r₀ := fun heq => hl ⟨rfl, heq⟩
          have hiff : s.inputs + l + r < clock' l ↔ s.inputs + l + r < clock l := by omega
          simp only [hiff]
        · rw [hothers l hl']
    · have hne : r₀ * s.outputs + j.val ≠ k := by omega
      simp only [Array.getElem?_setIfInBounds_ne hne, htail k hk]
    · simp only [Array.size_setIfInBounds, hsize]

/-- **All columns** are collected in a cycle, one after the other, and every clock advances by one.
-/
theorem CollectedAt.all {t : ℕ} {grid : Grid s} {output : Array UInt64}
    (h : CollectedAt input weights moduli before (fun _ => t) (grid.collectors, output))
    (hcells : CellsAt input weights moduli t grid) (hroom : s.rows * s.outputs ≤ before.size) :
    CollectedAt input weights moduli before (fun _ => t + 1)
      ((produce input t grid).collectAll output) := by
  -- the columns before `m` have been collected in this cycle, the others have not
  have hstart : (fun l : Fin s.outputs => if l.val < 0 then t + 1 else t) = fun _ => t := by
    simp
  have hend : (fun l : Fin s.outputs => if l.val < s.outputs then t + 1 else t) =
      fun _ => t + 1 := by
    simp
  rw [← hend]
  refine foldl_carries (fun m state => CollectedAt input weights moduli before
    (fun l : Fin s.outputs => if l.val < m then t + 1 else t) state) _ (by rwa [hstart])
    fun j state hstate => ?_
  have hj : (if j.val < j.val then t + 1 else t) = t := if_neg (Nat.lt_irrefl _)
  have hcolumn := hstate.column hroom j (fun l => if l.val < j.val + 1 then t + 1 else t)
    (by simp) fun l hl => by
      have hne : l.val ≠ j.val := fun hval => hl (Fin.ext hval)
      have hiff : l.val < j.val + 1 ↔ l.val < j.val := by omega
      simp only [hiff]
  simp only [hj] at hcolumn
  rw [← hcells.leaving j, ← hcells.columnModulus j] at hcolumn
  exact hcolumn

/-! ### The whole state -/

variable (input weights moduli before)

/-- The grid and the output after `t` cycles. -/
structure SpaceTime (t : ℕ) (state : Grid s × Array UInt64) : Prop where
  cells : CellsAt input weights moduli t state.1
  collected : CollectedAt input weights moduli before (fun _ => t) (state.1.collectors, state.2)

variable {input weights moduli before}

/-- Before the first cycle nothing is in the grid and nothing has been written. -/
theorem spaceTime_atRest :
    SpaceTime input weights moduli before 0 (atRest s weights moduli, before) where
  cells := cellsAt_atRest
  collected :=
    { count := fun j => (Vector.getElem_replicate j.isLt).trans (by simp [Shape.counted])
      word_eq := fun j r _ => by simp
      tail_eq := fun _ _ => rfl
      size_eq := rfl }

/-- **Every cycle** carries the invariant on. -/
theorem SpaceTime.cycle {t : ℕ} {state : Grid s × Array UInt64}
    (h : SpaceTime input weights moduli before t state)
    (hroom : s.rows * s.outputs ≤ before.size) :
    SpaceTime input weights moduli before (t + 1) (Grid.cycle input t state) :=
  ⟨h.cells.cycle state.2, h.collected.all h.cells hroom⟩

variable (input weights moduli) in
/-- **Space and time.** The invariant holds after any number of cycles from rest. -/
theorem spaceTime_after (hroom : s.rows * s.outputs ≤ before.size) (t : ℕ) :
    SpaceTime input weights moduli before t
      (after input t (atRest s weights moduli, before)) :=
  fold_carries (fun t state => SpaceTime input weights moduli before t state)
    (fun t _ state => Grid.cycle input t state) spaceTime_atRest fun _ _ _ h => h.cycle hroom

end Grid

end RnsEngine
