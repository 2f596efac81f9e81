import RnsEngine.Fault

/-!
# Shapes of matrix products

The grid multiplies a matrix of `rows × inputs` words by one of `inputs × outputs` weights. No
dimension is empty, and there are at most sixteen inputs: the sum of sixteen products of
numbers below `2 ^ 62` is below `2 ^ 128`, the width of an accumulator.
-/

namespace RnsEngine

/-- The dimensions of a product. -/
structure Shape where
  rows : Nat
  inputs : Nat
  outputs : Nat
  rows_pos : 0 < rows
  inputs_pos : 0 < inputs
  outputs_pos : 0 < outputs
  inputs_le : inputs ≤ 16

namespace Shape

/-- The most inputs that an accumulator can sum. -/
def maxInputs : Nat := 16

/-- The shape with given dimensions. -/
def ofDims (rows inputs outputs : Nat) : Except Fault Shape :=
  if h : 0 < rows ∧ 0 < inputs ∧ 0 < outputs then
    if hle : inputs ≤ maxInputs then
      .ok ⟨rows, inputs, outputs, h.1, h.2.1, h.2.2, hle⟩
    else .error (.tooManyInputs inputs maxInputs)
  else .error (.emptyShape rows inputs outputs)

/-- A shape is given out exactly for the dimensions that it has. -/
theorem ofDims_eq_ok_iff {rows inputs outputs : Nat} {s : Shape} :
    ofDims rows inputs outputs = .ok s ↔
      s.rows = rows ∧ s.inputs = inputs ∧ s.outputs = outputs := by
  constructor
  · intro h
    unfold ofDims at h
    split at h
    · split at h
      · obtain rfl := Except.ok.inj h
        exact ⟨rfl, rfl, rfl⟩
      · cases h
    · cases h
  · rintro ⟨rfl, rfl, rfl⟩
    exact (dif_pos ⟨s.rows_pos, s.inputs_pos, s.outputs_pos⟩).trans (dif_pos s.inputs_le)

/-- The cycles of a run: both feeds are skewed, and a row enters in every cycle. -/
def cycles (s : Shape) : Nat := s.outputs + s.inputs + s.rows

end Shape

end RnsEngine
