import RnsEngine.Proofs.Systolic.Product

/-!
# What a product is refused for

The checks of a product are listed in `Shape.checks`, in the order in which they are made: the
weights and moduli first, which a grid is installed with, then the input and the output of its run.
The first that does not pass gives the fault (`Grid.multiply_eq_resultUnless`), and all of them pass
for the operands that `Shape.Accepts` describes.

A run writes over the buffer of its caller as it goes (`Grid.multiplyInPlace`). All checks come
before the first cycle, so that a buffer is left alone by whatever is refused; and the checks and
the cycles see no words past the ones that the shape counts. `Grid.multiply_outcome` puts this
together.
-/

namespace RnsEngine

/-! ### Leading words -/

/-- Two buffers have the same leading words; either may go on after them, or end before. -/
def SameLeading (count : ℕ) (words words' : Array UInt64) : Prop :=
  words.toList.take count = words'.toList.take count

namespace SameLeading

variable {count : ℕ} {words words' : Array UInt64}

/-- Buffers with the same leading words both have so many, or they are the same buffer. -/
theorem size_le_or_eq (h : SameLeading count words words') :
    (count ≤ words.size ∧ count ≤ words'.size) ∨ words = words' := by
  have hlength := congrArg List.length h
  simp only [List.length_take, Array.length_toList] at hlength
  by_cases hsize : count ≤ words.size
  · exact .inl ⟨hsize, by omega⟩
  · have hwords : words.toList.take count = words.toList := List.take_of_length_le (by simp; omega)
    have hwords' : words'.toList.take count = words'.toList :=
      List.take_of_length_le (by simp; omega)
    exact .inr (Array.toList_inj.1 (hwords.symm.trans (h.trans hwords')))

/-- A leading word is the same in both. -/
theorem getD_eq (h : SameLeading count words words') {k : ℕ} (hk : k < count) :
    words.getD k 0 = words'.getD k 0 := by
  have hget := congrArg (fun l : List UInt64 => l[k]?) h
  simp only [List.getElem?_take_of_lt hk, Array.getElem?_toList] at hget
  rw [Array.getD_eq_getD_getElem?, Array.getD_eq_getD_getElem?, hget]

end SameLeading

/-- The leading words of a buffer, by their index. -/
theorem take_eq_map_range {count : ℕ} {words : Array UInt64} (hsize : count ≤ words.size) :
    words.toList.take count = (List.range count).map (words.getD · 0) := by
  refine List.ext_getElem (by simpa using hsize) fun k hk hk' => ?_
  have hlt : k < words.size := Nat.lt_of_lt_of_le (by simpa using hk') hsize
  simp [Array.getD_eq_getD_getElem?, hlt]

/-! ### The checks of a product -/

/-- The check of a word that goes into an accumulator. -/
def checkWord (role : Role) (words : Array UInt64) (k : ℕ) : Option Fault :=
  let x := words.getD k 0
  reasonUnless (x < modulusBound) (.operandOutOfRange role x modulusBound)

/-- The check of the size of a buffer. -/
def checkWords (role : Role) (expected : ℕ) (words : Array UInt64) : Option Fault :=
  reasonUnless (expected ≤ words.size) (.bufferTooShort role expected words.size)

/-- The check of the modulus of a column. -/
def checkModulus (moduli : Array UInt64) (j : ℕ) : Option Fault :=
  reasonUnless (moduli.getD j 0 ≠ 0) (.modulusOutOfRange 0)

/-- What the checks of an installation find, in their order. The weights are checked in the order of
their addresses. -/
def Shape.installChecks (s : Shape) (weights moduli : Array UInt64) : List (Option Fault) :=
  [ checkWords .conversionWeights (s.inputs * s.outputs) weights,
    checkWords .conversionModuli s.outputs moduli,
    (List.range (s.inputs * s.outputs)).findSome? (checkWord .conversionWeights weights),
    (List.range s.outputs).findSome? (checkModulus moduli) ]

/-- What the checks of a run find, in their order. -/
def Shape.runChecks (s : Shape) (input output : Array UInt64) : List (Option Fault) :=
  [ checkWords .conversionInput (s.rows * s.inputs) input,
    checkWords .conversionOutput (s.rows * s.outputs) output,
    (List.range (s.rows * s.inputs)).findSome? (checkWord .conversionInput input) ]

/-- The checks of a product: a grid is installed, and then it is run. -/
def Shape.checks (s : Shape) (input weights moduli output : Array UInt64) : List (Option Fault) :=
  s.installChecks weights moduli ++ s.runChecks input output

/-- A search by a check finds nothing when the check passes everywhere. -/
theorem findSome?_reasonUnless_eq_none_iff {P : ℕ → Prop} [DecidablePred P] {reason : ℕ → Fault}
    {count : ℕ} :
    (List.range count).findSome? (fun k => reasonUnless (P k) (reason k)) = none ↔
      ∀ k < count, P k := by
  simp [reasonUnless]

namespace Grid

variable {s : Shape} {input weights moduli output : Array UInt64}

/-- The size of a buffer is refused for the reason that its check finds. -/
theorem checkSize_eq (role : Role) (expected : ℕ) (words : Array UInt64) :
    checkSize role expected words = resultUnless (checkWords role expected words) () := by
  by_cases h : expected ≤ words.size
  · rw [checkSize, if_neg (Nat.not_lt.2 h), checkWords, resultUnless_of_holds h]
  · rw [checkSize, if_pos (Nat.lt_of_not_le h), checkWords, resultUnless_of_not_holds h]

/-- Operands are refused for the first word that is too large. -/
theorem checkOperands_eq (role : Role) {count : ℕ} {words : Array UInt64}
    (hsize : count ≤ words.size) :
    checkOperands role count words =
      resultUnless ((List.range count).findSome? (checkWord role words)) () := by
  have hfirst : (firstTooLarge? words count).map
      (fun x => Fault.operandOutOfRange role x modulusBound) =
        (List.range count).findSome? (checkWord role words) := by
    rw [firstTooLarge?, take_eq_map_range hsize, List.find?_eq_findSome?_guard, List.map_findSome?,
      List.findSome?_map]
    refine congrArg (List.findSome? · (List.range count)) (funext fun k => ?_)
    simp only [Function.comp_apply, Option.guard, checkWord, reasonUnless]
    generalize words.getD k 0 = x
    by_cases h : x < modulusBound
    · simp [h, UInt64.not_le.2 h]
    · simp [h, UInt64.not_lt.1 h]
  rw [← hfirst, checkOperands]
  cases firstTooLarge? words count <;> rfl

/-- A zero among the moduli is found by their checks. -/
theorem findSome?_checkModulus_eq (hsize : s.outputs ≤ moduli.size) :
    (List.range s.outputs).findSome? (checkModulus moduli) =
      if (moduli.toList.take s.outputs).contains 0 then some (.modulusOutOfRange 0) else none := by
  cases hzero : (moduli.toList.take s.outputs).contains 0 with
  | false =>
    rw [if_neg Bool.false_ne_true]
    exact findSome?_reasonUnless_eq_none_iff.2 ((contains_zero_iff hsize).1 hzero)
  | true =>
    rw [if_pos rfl]
    -- every check that does not pass gives the same reason
    cases hfound : (List.range s.outputs).findSome? (checkModulus moduli) with
    | none =>
      have hnone := (contains_zero_iff hsize).2 (findSome?_reasonUnless_eq_none_iff.1 hfound)
      rw [hzero] at hnone
      cases hnone
    | some fault =>
      obtain ⟨j, -, hj⟩ := List.exists_of_findSome?_eq_some hfound
      rw [checkModulus, reasonUnless] at hj
      split at hj
      · cases hj
      · rw [Option.some.inj hj]

/-- A grid is installed unless there is a reason against it. -/
theorem install_eq (s : Shape) (weights moduli : Array UInt64) :
    install s weights moduli =
      resultUnless ((s.installChecks weights moduli).findSome? id) (atRest s weights moduli) := by
  simp only [Shape.installChecks, resultUnless_findSome?_cons, resultUnless_findSome?_nil, install,
    checkSize_eq]
  by_cases hweights : s.inputs * s.outputs ≤ weights.size
  · by_cases hmoduli : s.outputs ≤ moduli.size
    · rw [checkOperands_eq _ hweights, findSome?_checkModulus_eq hmoduli]
      split <;> rfl
    · simp only [checkWords, resultUnless_of_not_holds hmoduli]
      rfl
  · simp only [checkWords, resultUnless_of_not_holds hweights]
    rfl

/-- A run takes place unless there is a reason against it. -/
theorem run_eq (grid : Grid s) (input output : Array UInt64) :
    grid.run input output =
      resultUnless ((s.runChecks input output).findSome? id)
        ⟨s.cycles, (after input s.cycles (grid, output)).2⟩ := by
  simp only [Shape.runChecks, resultUnless_findSome?_cons, resultUnless_findSome?_nil, run,
    checkSize_eq]
  by_cases hinput : s.rows * s.inputs ≤ input.size
  · rw [checkOperands_eq _ hinput]
    rfl
  · simp only [checkWords, resultUnless_of_not_holds hinput]
    rfl

/-- **The outcome of a product.** It is refused for the first reason that its checks find, and
without one it is what a run from rest leaves after the cycles of its shape. -/
theorem multiply_eq_resultUnless (s : Shape) (input weights moduli output : Array UInt64) :
    multiply s input weights moduli output =
      resultUnless ((s.checks input weights moduli output).findSome? id)
        ⟨s.cycles, (after input s.cycles (atRest s weights moduli, output)).2⟩ := by
  rw [multiply, install_eq, Shape.checks, List.findSome?_append]
  cases (s.installChecks weights moduli).findSome? id with
  | some fault => rfl
  | none => exact run_eq _ input output

/-! ### The buffer of the caller -/

/-- A program on the buffer of its caller. What it has written before it is refused stays written.
-/
abbrev Writing := ExceptT Fault (StateM (Array UInt64))

/-- A check that leaves the buffer alone. -/
def settled {α : Type} (r : Except Fault α) : Writing α := fun output => (r, output)

/-- One cycle of the clock, in which the collectors write to the buffer. -/
def cycleInPlace (input : Array UInt64) (t : ℕ) (grid : Grid s) : Writing (Grid s) := do
  let state := cycle input t (grid, ← get)
  set state.2
  return state.1

/-- So many cycles, one after the other. -/
def cyclesInPlace (input : Array UInt64) : ℕ → Grid s → Writing (Grid s)
  | 0, grid => return grid
  | t + 1, grid => do cycleInPlace input t (← cyclesInPlace input t grid)

/-- The product over the buffer of the caller; the cycles that it took. -/
def multiplyInPlace (s : Shape) (input weights moduli : Array UInt64) : Writing ℕ := do
  let grid ← settled (install s weights moduli)
  settled (checkSize .conversionInput (s.rows * s.inputs) input)
  settled (checkSize .conversionOutput (s.rows * s.outputs) (← get))
  settled (checkOperands .conversionInput (s.rows * s.inputs) input)
  let _ ← cyclesInPlace input s.cycles grid
  return s.cycles

/-- After a check that passes the program goes on over the same buffer. -/
theorem settled_bind_ok {α β : Type} {r : Except Fault α} {a : α} (h : r = .ok a)
    (f : α → Writing β) (output : Array UInt64) : (settled r >>= f) output = f a output :=
  bind_apply_of_ok (by rw [settled, h])

/-- A check that does not pass ends the program over the same buffer. -/
theorem settled_bind_error {α β : Type} {r : Except Fault α} {fault : Fault}
    (h : r = .error fault) (f : α → Writing β) (output : Array UInt64) :
    (settled r >>= f) output = (.error fault, output) :=
  bind_apply_of_error (by rw [settled, h])

/-- Reading the buffer. -/
theorem get_apply (output : Array UInt64) :
    (get : Writing (Array UInt64)) output = (.ok output, output) := rfl

/-- The cycles are not refused, and leave the grid and the buffer of a run. -/
theorem cyclesInPlace_eq (input : Array UInt64) (grid : Grid s) (output : Array UInt64) (t : ℕ) :
    cyclesInPlace input t grid output =
      (.ok (after input t (grid, output)).1, (after input t (grid, output)).2) := by
  induction t with
  | zero => rfl
  | succ t ih =>
    rw [cyclesInPlace, bind_apply_of_ok ih, after_succ]
    rfl

/-- The product over a buffer is the product, and one that is refused leaves the buffer alone. -/
theorem multiplyInPlace_eq (s : Shape) (input weights moduli output : Array UInt64) :
    multiplyInPlace s input weights moduli output =
      match multiply s input weights moduli output with
      | .ok p => (.ok p.cycles, p.output)
      | .error fault => (.error fault, output) := by
  unfold multiplyInPlace multiply run
  cases hinstall : install s weights moduli with
  | error fault => exact settled_bind_error rfl _ _
  | ok grid =>
    rw [settled_bind_ok rfl, ok_bind]
    cases hinput : checkSize .conversionInput (s.rows * s.inputs) input with
    | error fault => exact settled_bind_error rfl _ _
    | ok _ =>
      rw [settled_bind_ok rfl, ok_bind, bind_apply_of_ok (get_apply output)]
      cases houtput : checkSize .conversionOutput (s.rows * s.outputs) output with
      | error fault => exact settled_bind_error rfl _ _
      | ok _ =>
        rw [settled_bind_ok rfl, ok_bind]
        cases hwords : checkOperands .conversionInput (s.rows * s.inputs) input with
        | error fault => exact settled_bind_error rfl _ _
        | ok _ =>
          rw [settled_bind_ok rfl, ok_bind, bind_apply_of_ok (cyclesInPlace_eq input grid output _)]
          rfl

/-! ### Words past the used ones -/

section SameLeading

variable {input' weights' moduli' : Array UInt64}

/-- The check of a size sees whether the leading words are there. -/
theorem checkWords_congr (role : Role) {count : ℕ} {words words' : Array UInt64}
    (h : SameLeading count words words') :
    checkWords role count words = checkWords role count words' := by
  rcases h.size_le_or_eq with ⟨hwords, hwords'⟩ | rfl
  · rw [checkWords, checkWords, reasonUnless, reasonUnless, if_pos hwords, if_pos hwords']
  · rfl

/-- A search among the leading words finds the same. -/
theorem findSome?_range_congr {count : ℕ} {check check' : ℕ → Option Fault}
    (h : ∀ k < count, check k = check' k) :
    (List.range count).findSome? check = (List.range count).findSome? check' := by
  have hmap := List.map_congr_left fun k hk => h k (List.mem_range.1 hk)
  rw [← Function.id_comp check, ← Function.id_comp check', ← List.findSome?_map,
    ← List.findSome?_map, hmap]

/-- The checks see only the words that the shape counts. -/
theorem checks_congr (hinput : SameLeading (s.rows * s.inputs) input input')
    (hweights : SameLeading (s.inputs * s.outputs) weights weights')
    (hmoduli : SameLeading s.outputs moduli moduli') (output : Array UInt64) :
    s.checks input weights moduli output = s.checks input' weights' moduli' output := by
  have hword : ∀ role {count : ℕ} {words words' : Array UInt64}, SameLeading count words words' →
      (List.range count).findSome? (checkWord role words) =
        (List.range count).findSome? (checkWord role words') := fun role _ _ _ h =>
    findSome?_range_congr fun k hk => by rw [checkWord, checkWord, h.getD_eq hk]
  have hmodulus : (List.range s.outputs).findSome? (checkModulus moduli) =
      (List.range s.outputs).findSome? (checkModulus moduli') :=
    findSome?_range_congr fun j hj => by rw [checkModulus, checkModulus, hmoduli.getD_eq hj]
  rw [Shape.checks, Shape.checks, Shape.installChecks, Shape.installChecks, Shape.runChecks,
    Shape.runChecks, checkWords_congr _ hweights, checkWords_congr _ hmoduli,
    checkWords_congr _ hinput, hword _ hweights, hword _ hinput, hmodulus]

/-- A word of the product is made of words that the shape counts. -/
theorem word_congr (hinput : SameLeading (s.rows * s.inputs) input input')
    (hweights : SameLeading (s.inputs * s.outputs) weights weights')
    (hmoduli : SameLeading s.outputs moduli moduli') {r j : ℕ} (hr : r < s.rows)
    (hj : j < s.outputs) :
    word input weights moduli s r j = word input' weights' moduli' s r j := by
  have hsum : s.sumOf input weights (some r) j s.inputs =
      s.sumOf input' weights' (some r) j s.inputs := by
    rw [Shape.sumOf, Shape.sumOf, Option.elim_some, Option.elim_some]
    refine Finset.sum_congr rfl fun k hk => ?_
    have hk : k < s.inputs := Finset.mem_range.1 hk
    rw [hinput.getD_eq (mul_add_lt_mul hr hk), hweights.getD_eq (mul_add_lt_mul hk hj)]
  rw [word, word, hsum, hmoduli.getD_eq hj]

/-- A run sees only the words that the shape counts. -/
theorem after_congr (hinput : SameLeading (s.rows * s.inputs) input input')
    (hweights : SameLeading (s.inputs * s.outputs) weights weights')
    (hmoduli : SameLeading s.outputs moduli moduli') (hroom : s.rows * s.outputs ≤ output.size)
    (t : ℕ) :
    (after input t (atRest s weights moduli, output)).2 =
      (after input' t (atRest s weights' moduli', output)).2 := by
  have h := (spaceTime_after input weights moduli hroom t).collected
  have h' := (spaceTime_after input' weights' moduli' hroom t).collected
  refine Array.ext_getElem? fun k => ?_
  by_cases hk : k < s.rows * s.outputs
  · revert k
    refine forall_lt_mul fun r hr j hj => ?_
    rw [h.word_eq ⟨j, hj⟩ r hr, h'.word_eq ⟨j, hj⟩ r hr]
    simp only [word_congr hinput hweights hmoduli hr hj]
  · rw [h.tail_eq k (Nat.le_of_not_lt hk), h'.tail_eq k (Nat.le_of_not_lt hk)]

/-- The words that the shape does not count have no part in the outcome of a product. -/
theorem multiply_congr (hinput : SameLeading (s.rows * s.inputs) input input')
    (hweights : SameLeading (s.inputs * s.outputs) weights weights')
    (hmoduli : SameLeading s.outputs moduli moduli') (output : Array UInt64) :
    multiply s input weights moduli output = multiply s input' weights' moduli' output := by
  have hchecks := checks_congr hinput hweights hmoduli output
  rw [multiply_eq_resultUnless, multiply_eq_resultUnless, hchecks]
  cases hreason : (s.checks input' weights' moduli' output).findSome? id with
  | some fault => simp only [resultUnless]
  | none =>
    have hok := multiply_eq_resultUnless s input' weights' moduli' output
    rw [hreason] at hok
    have haccepts := (multiply_eq_ok_iff.1 hok).1
    rw [after_congr hinput hweights hmoduli haccepts.output_size]

end SameLeading

/-! ### The outcome -/

/-- There is no reason against a product exactly when its operands are accepted. -/
theorem findSome?_checks_eq_none_iff :
    (s.checks input weights moduli output).findSome? id = none ↔
      s.Accepts input weights moduli output := by
  rw [← resultUnless_eq_ok_iff, ← multiply_eq_resultUnless, multiply_eq_ok_iff]
  exact and_iff_left rfl

/-- A product with a reason against it is refused for it, and leaves the buffer alone. -/
theorem multiplyInPlace_of_refused {fault : Fault}
    (h : (s.checks input weights moduli output).findSome? id = some fault) :
    multiplyInPlace s input weights moduli output = (.error fault, output) := by
  rw [multiplyInPlace_eq, multiply_eq_resultUnless, h]
  simp only [resultUnless]

/-- A product of accepted operands leaves the buffer of its run. -/
theorem multiplyInPlace_of_accepts (h : s.Accepts input weights moduli output) :
    multiplyInPlace s input weights moduli output =
      (.ok s.cycles, (after input s.cycles (atRest s weights moduli, output)).2) := by
  rw [multiplyInPlace_eq, multiply_eq_ok_iff.2 ⟨h, rfl⟩]

/-- **What is refused, and what is left alone.** A product over the buffer of a caller is computed
exactly for operands that are accepted. Any others are refused for the first reason that the checks
find in their order, and the buffer is left alone. A product that is computed leaves the words past
its own as they were. Whichever it is, the outcome and the buffer are the same for all matrices and
moduli with the same leading words: what is past the words that the shape counts has no part in
them. -/
theorem multiply_outcome (s : Shape) (input weights moduli output : Array UInt64) :
    let reason := (s.checks input weights moduli output).findSome? id
    let done : Except Fault ℕ × Array UInt64 := multiplyInPlace s input weights moduli output
    ((∃ cycles, done.1 = .ok cycles) ↔ s.Accepts input weights moduli output) ∧
      done.1 = resultUnless reason s.cycles ∧
      (∀ fault, done.1 = .error fault → done.2 = output) ∧
      (∀ cycles, done.1 = .ok cycles → done.2.size = output.size ∧
        ∀ k, s.rows * s.outputs ≤ k → done.2[k]? = output[k]?) ∧
      (∀ input' weights' moduli', SameLeading (s.rows * s.inputs) input input' →
        SameLeading (s.inputs * s.outputs) weights weights' → SameLeading s.outputs moduli moduli' →
          multiplyInPlace s input' weights' moduli' output = done) ∧
      multiply s input weights moduli output = done.1.map fun cycles => ⟨cycles, done.2⟩ := by
  intro reason done
  have hcongr : ∀ input' weights' moduli', SameLeading (s.rows * s.inputs) input input' →
      SameLeading (s.inputs * s.outputs) weights weights' → SameLeading s.outputs moduli moduli' →
        multiplyInPlace s input' weights' moduli' output = done := by
    intro input' weights' moduli' hinput hweights hmoduli
    rw [multiplyInPlace_eq, ← multiply_congr hinput hweights hmoduli, ← multiplyInPlace_eq]
  have hmultiply : multiply s input weights moduli output =
      resultUnless reason ⟨s.cycles, (after input s.cycles (atRest s weights moduli, output)).2⟩ :=
    multiply_eq_resultUnless ..
  cases hreason : reason with
  | some fault =>
    have hdone : done = (.error fault, output) := multiplyInPlace_of_refused hreason
    have hnot : ¬ s.Accepts input weights moduli output := fun h =>
      absurd (hreason.symm.trans (findSome?_checks_eq_none_iff.2 h)) (Option.some_ne_none fault)
    rw [hdone] at hcongr ⊢
    rw [hmultiply, hreason]
    refine ⟨iff_of_false (fun ⟨_, h⟩ => ?_) hnot, rfl, fun _ _ => rfl, fun _ h => ?_, hcongr, ?_⟩
    · cases h
    · cases h
    · simp only [resultUnless, Except.map]
  | none =>
    have haccepts := findSome?_checks_eq_none_iff.1 hreason
    have hdone := multiplyInPlace_of_accepts haccepts
    have hcollected :=
      (spaceTime_after input weights moduli haccepts.output_size s.cycles).collected
    change done = _ at hdone
    rw [hdone] at hcongr ⊢
    rw [hmultiply, hreason]
    refine ⟨iff_of_true ⟨_, rfl⟩ haccepts, rfl, fun _ h => ?_,
      fun _ _ => ⟨hcollected.size_eq, hcollected.tail_eq⟩, hcongr, rfl⟩
    cases h

end Grid

end RnsEngine
