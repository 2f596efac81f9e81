import Mathlib.Data.List.FinRange
import RnsEngine.Proofs.Systolic.Product

/-!
# The assertions of the grid

A cycle takes its steps one after the other: first every producer pushes (`Producer.order`), then
every consumer pops (`Consumer.order`). Each step asserts what it relies on: that a push is taken,
that a pop finds a word, that an accumulator has not overflowed. `Grid.produceInOrder` and
`Grid.consumeInOrder` are the two halves of a cycle with these assertions, and give up when one of
them fails.

Every link belongs to one producer and one consumer. What the steps done so far have changed is
therefore known link by link (`Grid.Producing`, `Grid.Consuming`), and a half whose assertions hold
of the links before it is the same half of `Grid.cycle`. In a run they do hold: between two cycles
all links are empty (`Grid.runInOrder_eq`). `Grid.multiply_asserts` states what is asserted, cycle
by cycle.
-/

namespace RnsEngine

/-- Steps that succeed and carry a property on from the steps done to one more succeed as a whole.
-/
theorem foldlM_carries {σ α : Type} (P : List α → σ → Prop) {f : σ → α → Option σ} {steps : List α}
    (hnodup : steps.Nodup) {s : σ} (hs : P [] s)
    (hstep : ∀ done x s, x ∉ done → P done s → ∃ s', f s x = some s' ∧ P (done ++ [x]) s') :
    ∃ s', steps.foldlM f s = some s' ∧ P steps s' := by
  suffices h : ∀ (rest done : List α) (s : σ), (done ++ rest).Nodup → P done s →
      ∃ s', rest.foldlM f s = some s' ∧ P (done ++ rest) s' from h steps [] s hnodup hs
  intro rest
  induction rest with
  | nil =>
    intro done s _ hs
    exact ⟨s, rfl, (List.append_nil done).symm ▸ hs⟩
  | cons x rest ih =>
    intro done s hnodup hs
    have hx : x ∉ done := fun hmem =>
      (List.nodup_append.1 hnodup).2.2 x hmem x List.mem_cons_self rfl
    obtain ⟨s', hs', hP⟩ := hstep done x s hx hs
    rw [List.append_cons] at hnodup ⊢
    obtain ⟨s'', hs'', hP'⟩ := ih (done ++ [x]) s' hnodup hP
    refine ⟨s'', ?_, hP'⟩
    rw [List.foldlM_cons, hs']
    exact hs''

/-- One more place that has its new value. -/
theorem ite_ite_or {α : Type} {b c : Prop} [Decidable b] [Decidable c] {new old here : α}
    (h : c → here = new) :
    (if c then here else if b then new else old) = if b ∨ c then new else old := by
  by_cases hc : c
  · rw [if_pos hc, if_pos (.inr hc), h hc]
  · simp only [hc, if_false, or_false]

/-! ### Links -/

namespace Link

variable {α : Type} {l : Link α}

/-- Pushes a word and asserts that it is taken. -/
def push? (l : Link α) (x : α) : Option (Link α) :=
  if (l.push x).1 then some (l.push x).2 else none

/-- Pops a word and asserts that there is one. -/
def pop? (l : Link α) : Option (α × Link α) :=
  l.pop.1.map (·, l.pop.2)

/-- An empty link takes a word. -/
theorem push_fst_of_toList (h : l.toList = []) (x : α) : (l.push x).1 = true := by
  rw [push_fst, h]
  rfl

/-- An empty link holds the word that is pushed. -/
theorem toList_push_of_toList (h : l.toList = []) (x : α) : (l.push x).2.toList = [x] := by
  rw [toList_push, h]
  rfl

/-- It holds one word then, which can be popped. -/
theorem holds_one (h : l.toList = []) (x : α) :
    (l.push x).2.count = 1 ∧ (l.push x).2.pop.1.isSome := by
  rw [← length_toList, (pop_eq _).1, toList_push_of_toList h]
  exact ⟨rfl, rfl⟩

/-- A link that stands for the empty queue is empty. -/
theorem isEmpty_of_toList (h : l.toList = []) : l.isEmpty := by
  rw [isEmpty, ← length_toList, h]
  rfl

/-- The assertion of a push holds on an empty link. -/
theorem push?_of_toList (h : l.toList = []) (x : α) : l.push? x = some (l.push x).2 :=
  if_pos (push_fst_of_toList h x)

/-- The assertion of a pop holds on a link that holds a word. -/
theorem pop?_of_toList [Inhabited α] (h : l.toList ≠ []) :
    l.pop? = some (Grid.arriving l, l.pop.2) := by
  obtain ⟨x, xs, hl⟩ := List.exists_cons_of_ne_nil h
  rw [pop?, Grid.arriving, (pop_eq l).1, hl]
  rfl

end Link

namespace Grid

variable {s : Shape}

/-! ### Single places -/

/-- Replaces an entry of a matrix. -/
def replaceEntry {α : Type} {m n : ℕ} (v : Vector (Vector α n) m) (i : Fin m) (j : Fin n) (x : α) :
    Vector (Vector α n) m :=
  v.set i.val ((v.get i).set j.val x j.isLt) i.isLt

/-- An entry of a matrix in which one entry has been replaced. -/
theorem get_get_replaceEntry {α : Type} {m n : ℕ} (v : Vector (Vector α n) m) (i i' : Fin m)
    (j j' : Fin n) (x : α) :
    ((replaceEntry v i j x).get i').get j' =
      if i' = i ∧ j' = j then x else (v.get i').get j' := by
  rw [replaceEntry, get_set]
  by_cases hi : i' = i
  · simp only [hi, if_true, get_set, true_and]
  · simp only [hi, if_false, false_and]

/-- Replaces a link of a row. -/
def setWest (grid : Grid s) (i : Fin s.inputs) (j : Fin (s.outputs + 1)) (link : Link UInt64) :
    Grid s :=
  { grid with across := replaceEntry grid.across i j link }

/-- Replaces a link of a column. -/
def setNorth (grid : Grid s) (i : Fin (s.inputs + 1)) (j : Fin s.outputs) (link : Link ℕ) :
    Grid s :=
  { grid with down := replaceEntry grid.down j i link }

/-- Replaces a cell. -/
def setCell (grid : Grid s) (i : Fin s.inputs) (j : Fin s.outputs) (cell : Cell) : Grid s :=
  { grid with cells := replaceEntry grid.cells i j cell }

section Views

variable (grid : Grid s)

@[simp] theorem west_setWest (i i' : Fin s.inputs) (j j' : Fin (s.outputs + 1))
    (link : Link UInt64) :
    (grid.setWest i j link).west i' j' = if i' = i ∧ j' = j then link else grid.west i' j' :=
  get_get_replaceEntry ..

@[simp] theorem north_setNorth (i i' : Fin (s.inputs + 1)) (j j' : Fin s.outputs)
    (link : Link ℕ) :
    (grid.setNorth i j link).north i' j' = if i' = i ∧ j' = j then link else grid.north i' j' :=
  (get_get_replaceEntry ..).trans (if_congr and_comm rfl rfl)

@[simp] theorem cell_setCell (i i' : Fin s.inputs) (j j' : Fin s.outputs) (cell : Cell) :
    (grid.setCell i j cell).cell i' j' = if i' = i ∧ j' = j then cell else grid.cell i' j' :=
  get_get_replaceEntry ..

@[simp] theorem west_setNorth (i : Fin (s.inputs + 1)) (j : Fin s.outputs) (link : Link ℕ) :
    (grid.setNorth i j link).west = grid.west := rfl

@[simp] theorem west_setCell (i : Fin s.inputs) (j : Fin s.outputs) (cell : Cell) :
    (grid.setCell i j cell).west = grid.west := rfl

@[simp] theorem north_setWest (i : Fin s.inputs) (j : Fin (s.outputs + 1)) (link : Link UInt64) :
    (grid.setWest i j link).north = grid.north := rfl

@[simp] theorem north_setCell (i : Fin s.inputs) (j : Fin s.outputs) (cell : Cell) :
    (grid.setCell i j cell).north = grid.north := rfl

@[simp] theorem cell_setWest (i : Fin s.inputs) (j : Fin (s.outputs + 1)) (link : Link UInt64) :
    (grid.setWest i j link).cell = grid.cell := rfl

@[simp] theorem cell_setNorth (i : Fin (s.inputs + 1)) (j : Fin s.outputs) (link : Link ℕ) :
    (grid.setNorth i j link).cell = grid.cell := rfl

/-- A grid is what its cells, links and collectors are. -/
theorem ext_views {grid grid' : Grid s} (hcell : ∀ i j, grid.cell i j = grid'.cell i j)
    (hwest : ∀ i j, grid.west i j = grid'.west i j)
    (hnorth : ∀ i j, grid.north i j = grid'.north i j)
    (hcollectors : grid.collectors = grid'.collectors) : grid = grid' := by
  have hmatrix : ∀ {α : Type} {m n : ℕ} {v w : Vector (Vector α n) m},
      (∀ (i : Fin m) (j : Fin n), v[i][j] = w[i][j]) → v = w := fun h =>
    Vector.ext fun i hi => Vector.ext fun j hj => h ⟨i, hi⟩ ⟨j, hj⟩
  obtain ⟨cells, across, down, collectors⟩ := grid
  obtain ⟨cells', across', down', collectors'⟩ := grid'
  rw [Grid.mk.injEq]
  exact ⟨hmatrix hcell, hmatrix hwest, hmatrix fun j i => hnorth i j, hcollectors⟩

end Views

end Grid

/-! ### Producers -/

/-- What pushes in the first half of a cycle: the feed of a row, the top of a column, or a cell, to
the east and to the south. -/
inductive Producer (s : Shape) where
  | feed (i : Fin s.inputs)
  | top (j : Fin s.outputs)
  | cell (i : Fin s.inputs) (j : Fin s.outputs)
deriving DecidableEq

namespace Producer

variable {s : Shape}

/-- The producers in the order in which they push. -/
def order (s : Shape) : List (Producer s) :=
  (List.finRange s.inputs).map feed ++ (List.finRange s.outputs).map top ++
    (List.finRange s.inputs).flatMap fun i => (List.finRange s.outputs).map (cell i)

/-- The producer of a link of a row. -/
def ofWest (i : Fin s.inputs) (j : Fin (s.outputs + 1)) : Producer s :=
  Fin.cases (feed i) (cell i) j

/-- The producer of a link of a column. -/
def ofNorth (i : Fin (s.inputs + 1)) (j : Fin s.outputs) : Producer s :=
  Fin.cases (top j) (fun i => cell i j) i

/-- A producer pushes, and asserts that what it pushes is taken. -/
def push? (input : Array UInt64) (t : ℕ) (grid : Grid s) : Producer s → Option (Grid s)
  | feed i => do
    let link ← (grid.west i 0).push? (Grid.feed s input t i)
    return grid.setWest i 0 link
  | top j => do
    let link ← (grid.north 0 j).push? 0
    return grid.setNorth 0 j link
  | cell i j => do
    let (x, sum) := (grid.cell i j).emit
    let east ← (grid.west i j.succ).push? x
    let grid := grid.setWest i j.succ east
    let south ← (grid.north i.succ j).push? sum
    return grid.setNorth i.succ j south

/-- Every producer pushes once. -/
theorem nodup_order : (order s).Nodup := by
  have hfeeds : ((List.finRange s.inputs).map (feed (s := s))).Nodup :=
    (List.nodup_finRange _).map fun _ _ h => Producer.feed.inj h
  have htops : ((List.finRange s.outputs).map (top (s := s))).Nodup :=
    (List.nodup_finRange _).map fun _ _ h => Producer.top.inj h
  have hcells : ((List.finRange s.inputs).flatMap fun i =>
      (List.finRange s.outputs).map (cell i)).Nodup := by
    refine List.nodup_flatMap.2 ⟨fun i _ => ?_, ?_⟩
    · exact (List.nodup_finRange _).map fun _ _ h => (Producer.cell.inj h).2
    · refine (List.nodup_finRange _).imp fun hne => ?_
      simp [Function.onFun, List.disjoint_left, Ne.symm hne]
  refine (hfeeds.append htops ?_).append hcells ?_
  · simp [List.disjoint_left]
  · simp [List.disjoint_left, or_imp, forall_and]

/-- Every link has its producer. -/
theorem ofWest_mem_order (i : Fin s.inputs) (j : Fin (s.outputs + 1)) : ofWest i j ∈ order s := by
  cases j using Fin.cases with
  | zero => simp [order, ofWest]
  | succ j => simp [order, ofWest]

/-- Every link has its producer. -/
theorem ofNorth_mem_order (i : Fin (s.inputs + 1)) (j : Fin s.outputs) :
    ofNorth i j ∈ order s := by
  cases i using Fin.cases with
  | zero => simp [order, ofNorth]
  | succ i => simp [order, ofNorth]

/-- A link of a row is fed at its head. -/
theorem ofWest_eq_feed_iff {i i' : Fin s.inputs} {j' : Fin (s.outputs + 1)} :
    ofWest i' j' = feed i ↔ i' = i ∧ j' = 0 := by
  cases j' using Fin.cases <;> simp [ofWest]

/-- A cell pushes into the link to its east. -/
theorem ofWest_eq_cell_iff {i i' : Fin s.inputs} {j : Fin s.outputs} {j' : Fin (s.outputs + 1)} :
    ofWest i' j' = cell i j ↔ i' = i ∧ j' = j.succ := by
  cases j' using Fin.cases <;> simp [ofWest, Ne.symm (Fin.succ_ne_zero _)]

/-- A link of a row is not fed at the top. -/
theorem ofWest_ne_top {i' : Fin s.inputs} {j : Fin s.outputs} {j' : Fin (s.outputs + 1)} :
    ofWest i' j' ≠ top j := by
  cases j' using Fin.cases <;> simp [ofWest]

/-- A link of a column is fed at the top. -/
theorem ofNorth_eq_top_iff {i' : Fin (s.inputs + 1)} {j j' : Fin s.outputs} :
    ofNorth i' j' = top j ↔ i' = 0 ∧ j' = j := by
  cases i' using Fin.cases <;> simp [ofNorth]

/-- A cell pushes into the link to its south. -/
theorem ofNorth_eq_cell_iff {i : Fin s.inputs} {i' : Fin (s.inputs + 1)} {j j' : Fin s.outputs} :
    ofNorth i' j' = cell i j ↔ i' = i.succ ∧ j' = j := by
  cases i' using Fin.cases <;> simp [ofNorth, Ne.symm (Fin.succ_ne_zero _)]

/-- A link of a column is not fed from the side. -/
theorem ofNorth_ne_feed {i : Fin s.inputs} {i' : Fin (s.inputs + 1)} {j' : Fin s.outputs} :
    ofNorth i' j' ≠ feed i := by
  cases i' using Fin.cases <;> simp [ofNorth]

end Producer

namespace Grid

variable {s : Shape} (input : Array UInt64) (t : ℕ)

/-- The first half of a cycle, with its assertions. -/
def produceInOrder (grid : Grid s) : Option (Grid s) :=
  (Producer.order s).foldlM (Producer.push? input t) grid

/-- What some of the producers have pushed from a grid: the links that are theirs have been pushed
into, and the rest is as it was. -/
structure Producing (before : Grid s) (done : List (Producer s)) (grid : Grid s) : Prop where
  cell : grid.cell = before.cell
  collectors : grid.collectors = before.collectors
  west : ∀ i j, grid.west i j =
    if Producer.ofWest i j ∈ done then ((before.west i j).push (before.eastward input t i j)).2
    else before.west i j
  north : ∀ i j, grid.north i j =
    if Producer.ofNorth i j ∈ done then ((before.north i j).push (before.southward j i)).2
    else before.north i j

variable {input t}

/-- Pushing into a link of a row that has not been pushed into. -/
theorem Producing.push_west {before grid : Grid s} {done : List (Producer s)}
    (h : Producing input t before done grid) {i : Fin s.inputs} {j : Fin (s.outputs + 1)}
    (hlink : (before.west i j).toList = []) (hnew : Producer.ofWest i j ∉ done) :
    (grid.west i j).push? (before.eastward input t i j) =
      some ((before.west i j).push (before.eastward input t i j)).2 := by
  rw [h.west, if_neg hnew, Link.push?_of_toList hlink]

/-- Pushing into a link of a column that has not been pushed into. -/
theorem Producing.push_north {before grid : Grid s} {done : List (Producer s)}
    (h : Producing input t before done grid) {i : Fin (s.inputs + 1)} {j : Fin s.outputs}
    (hlink : (before.north i j).toList = []) (hnew : Producer.ofNorth i j ∉ done) :
    (grid.north i j).push? (before.southward j i) =
      some ((before.north i j).push (before.southward j i)).2 := by
  rw [h.north, if_neg hnew, Link.push?_of_toList hlink]

/-- A further producer pushes. -/
theorem Producing.step {before grid : Grid s} {done : List (Producer s)}
    (hwest : ∀ i j, (before.west i j).toList = []) (hnorth : ∀ i j, (before.north i j).toList = [])
    (h : Producing input t before done grid) {p : Producer s} (hp : p ∉ done) :
    ∃ grid', p.push? input t grid = some grid' ∧ Producing input t before (done ++ [p]) grid' := by
  cases p with
  | feed i =>
    have hpush := h.push_west (hwest i 0) hp
    refine ⟨_, congrArg (· >>= fun link => some (grid.setWest i 0 link)) hpush, h.cell,
      h.collectors, fun i' j' => ?_, fun i' j' => ?_⟩
    · simp only [west_setWest, h.west, List.mem_append, List.mem_singleton,
        Producer.ofWest_eq_feed_iff]
      exact ite_ite_or fun ⟨hi, hj⟩ => by rw [hi, hj]
    · simp only [north_setWest, h.north, List.mem_append, List.mem_singleton,
        Producer.ofNorth_ne_feed, or_false]
  | top j =>
    have hpush := h.push_north (hnorth 0 j) hp
    refine ⟨_, congrArg (· >>= fun link => some (grid.setNorth 0 j link)) hpush, h.cell,
      h.collectors, fun i' j' => ?_, fun i' j' => ?_⟩
    · simp only [west_setNorth, h.west, List.mem_append, List.mem_singleton,
        Producer.ofWest_ne_top, or_false]
    · simp only [north_setNorth, h.north, List.mem_append, List.mem_singleton,
        Producer.ofNorth_eq_top_iff]
      exact ite_ite_or fun ⟨hi, hj⟩ => by rw [hi, hj]
  | cell i j =>
    have heast := h.push_west (hwest i j.succ) hp
    have hsouth := h.push_north (hnorth i.succ j) hp
    have hemit : (grid.cell i j).emit =
        (before.eastward input t i j.succ, before.southward j i.succ) := by
      rw [h.cell]
      rfl
    have hstep : Producer.push? input t grid (.cell i j) = some
        ((grid.setWest i j.succ ((before.west i j.succ).push (before.eastward input t i j.succ)).2)
          |>.setNorth i.succ j ((before.north i.succ j).push (before.southward j i.succ)).2) := by
      simp only [Producer.push?, hemit, heast, Option.bind_eq_bind, Option.bind_some, north_setWest,
        hsouth]
      rfl
    refine ⟨_, hstep, h.cell, h.collectors, fun i' j' => ?_, fun i' j' => ?_⟩
    · simp only [west_setNorth, west_setWest, h.west, List.mem_append, List.mem_singleton,
        Producer.ofWest_eq_cell_iff]
      exact ite_ite_or fun ⟨hi, hj⟩ => by rw [hi, hj]
    · simp only [north_setNorth, north_setWest, h.north, List.mem_append, List.mem_singleton,
        Producer.ofNorth_eq_cell_iff]
      exact ite_ite_or fun ⟨hi, hj⟩ => by rw [hi, hj]

/-- From empty links the first half of a cycle passes its assertions. -/
theorem produceInOrder_eq {grid : Grid s} (hwest : ∀ i j, (grid.west i j).toList = [])
    (hnorth : ∀ i j, (grid.north i j).toList = []) :
    produceInOrder input t grid = some (produce input t grid) := by
  have hstart : Producing input t grid [] grid := ⟨rfl, rfl, fun _ _ => rfl, fun _ _ => rfl⟩
  obtain ⟨grid', hrun, h⟩ := foldlM_carries (Producing input t grid) Producer.nodup_order hstart
    fun _ _ _ hp h => h.step hwest hnorth hp
  rw [produceInOrder, hrun, Option.some_inj]
  refine ext_views (fun i j => ?_) (fun i j => ?_) (fun i j => ?_) h.collectors
  · rw [h.cell]
    rfl
  · rw [h.west, if_pos (Producer.ofWest_mem_order i j), west_produce]
  · rw [h.north, if_pos (Producer.ofNorth_mem_order i j), north_produce]

end Grid

/-! ### Consumers -/

/-- What pops in the second half of a cycle: a cell, from the west and from the north, the drain of
a row, or the foot of a column. -/
inductive Consumer (s : Shape) where
  | cell (i : Fin s.inputs) (j : Fin s.outputs)
  | drain (i : Fin s.inputs)
  | foot (j : Fin s.outputs)
deriving DecidableEq

namespace Consumer

variable {s : Shape}

/-- The consumers in the order in which they pop. -/
def order (s : Shape) : List (Consumer s) :=
  ((List.finRange s.inputs).flatMap fun i => (List.finRange s.outputs).map (cell i) ++ [drain i]) ++
    (List.finRange s.outputs).map foot

/-- The consumer of a link of a row. -/
def ofWest (i : Fin s.inputs) (j : Fin (s.outputs + 1)) : Consumer s :=
  Fin.lastCases (drain i) (cell i) j

/-- The consumer of a link of a column. -/
def ofNorth (i : Fin (s.inputs + 1)) (j : Fin s.outputs) : Consumer s :=
  Fin.lastCases (foot j) (fun i => cell i j) i

@[simp] theorem ofWest_castSucc (i : Fin s.inputs) (j : Fin s.outputs) :
    ofWest i j.castSucc = cell i j := Fin.lastCases_castSucc ..

@[simp] theorem ofWest_last (i : Fin s.inputs) : ofWest i (.last s.outputs) = drain i :=
  Fin.lastCases_last ..

@[simp] theorem ofNorth_castSucc (i : Fin s.inputs) (j : Fin s.outputs) :
    ofNorth i.castSucc j = cell i j := Fin.lastCases_castSucc ..

@[simp] theorem ofNorth_last (j : Fin s.outputs) : ofNorth (.last s.inputs) j = foot j :=
  Fin.lastCases_last ..

/-- The column that a consumer collects. -/
def foot? : Consumer s → Option (Fin s.outputs)
  | cell _ _ => none
  | drain _ => none
  | foot j => some j

/-- A consumer pops, and asserts that there is something to pop and, in a cell, that the accumulator
has not overflowed. -/
def pop? (state : Grid s × Array UInt64) : Consumer s → Option (Grid s × Array UInt64)
  | cell i j => do
    let (x, west) ← (state.1.west i j.castSucc).pop?
    let (sum, north) ← (state.1.north i.castSucc j).pop?
    let cell := (state.1.cell i j).latch x sum
    if cell.sum < 2 ^ 128 then
      return (((state.1.setWest i j.castSucc west).setNorth i.castSucc j north).setCell i j cell,
        state.2)
    else none
  | drain i => do
    let (_, west) ← (state.1.west i (.last _)).pop?
    return (state.1.setWest i (.last _) west, state.2)
  | foot j => do
    let (sum, north) ← (state.1.north (.last _) j).pop?
    let (collectors, output) :=
      Grid.collectColumn j sum (state.1.columnModulus j) (state.1.collectors, state.2)
    return ({ state.1.setNorth (.last _) j north with collectors }, output)

/-- Every consumer pops once. -/
theorem nodup_order : (order s).Nodup := by
  have hfeet : ((List.finRange s.outputs).map (foot (s := s))).Nodup :=
    (List.nodup_finRange _).map fun _ _ h => Consumer.foot.inj h
  have hrows : ((List.finRange s.inputs).flatMap fun i =>
      (List.finRange s.outputs).map (cell i) ++ [drain i]).Nodup := by
    refine List.nodup_flatMap.2 ⟨fun i _ => ?_, ?_⟩
    · refine ((List.nodup_finRange _).map fun _ _ h => (Consumer.cell.inj h).2).append
        (List.nodup_singleton _) ?_
      simp
    · refine (List.nodup_finRange _).imp fun hne => ?_
      simp [Function.onFun, List.disjoint_left, or_imp, forall_and, hne, Ne.symm hne]
  refine hrows.append hfeet (List.disjoint_left.2 ?_)
  simp only [List.mem_flatMap, List.mem_append, List.mem_map, List.mem_singleton]
  rintro _ ⟨_, -, ⟨_, -, rfl⟩ | rfl⟩ ⟨_, -, h⟩ <;> cases h

/-- Every link has its consumer. -/
theorem ofWest_mem_order (i : Fin s.inputs) (j : Fin (s.outputs + 1)) : ofWest i j ∈ order s := by
  cases j using Fin.lastCases <;> simp [order, ofWest]

/-- Every link has its consumer. -/
theorem ofNorth_mem_order (i : Fin (s.inputs + 1)) (j : Fin s.outputs) :
    ofNorth i j ∈ order s := by
  cases i using Fin.lastCases <;> simp [order, ofNorth]

/-- Every cell is a consumer. -/
theorem cell_mem_order (i : Fin s.inputs) (j : Fin s.outputs) : cell i j ∈ order s := by
  simp [order]

/-- The columns are collected one after the other. -/
theorem filterMap_order : (order s).filterMap foot? = List.finRange s.outputs := by
  have hrows : ((List.finRange s.inputs).flatMap fun i =>
      (List.finRange s.outputs).map (cell i) ++ [drain i]).filterMap foot? = [] := by
    simp only [List.filterMap_eq_nil_iff, List.mem_flatMap, List.mem_append, List.mem_map,
      List.mem_singleton]
    rintro _ ⟨_, -, ⟨_, -, rfl⟩ | rfl⟩ <;> rfl
  have hfeet : foot? ∘ foot (s := s) = some := rfl
  rw [order, List.filterMap_append, hrows, List.nil_append, List.filterMap_map, hfeet,
    List.filterMap_some]

/-- A cell pops the link to its west. -/
theorem ofWest_eq_cell_iff {i i' : Fin s.inputs} {j : Fin s.outputs} {j' : Fin (s.outputs + 1)} :
    ofWest i' j' = cell i j ↔ i' = i ∧ j' = j.castSucc := by
  cases j' using Fin.lastCases <;> simp [ofWest, Ne.symm (Fin.castSucc_ne_last _)]

/-- A link of a row is drained at its end. -/
theorem ofWest_eq_drain_iff {i i' : Fin s.inputs} {j' : Fin (s.outputs + 1)} :
    ofWest i' j' = drain i ↔ i' = i ∧ j' = .last _ := by
  cases j' using Fin.lastCases <;> simp [ofWest]

/-- A link of a row does not end at a foot. -/
theorem ofWest_ne_foot {i' : Fin s.inputs} {j : Fin s.outputs} {j' : Fin (s.outputs + 1)} :
    ofWest i' j' ≠ foot j := by
  cases j' using Fin.lastCases <;> simp [ofWest]

/-- A cell pops the link to its north. -/
theorem ofNorth_eq_cell_iff {i : Fin s.inputs} {i' : Fin (s.inputs + 1)} {j j' : Fin s.outputs} :
    ofNorth i' j' = cell i j ↔ i' = i.castSucc ∧ j' = j := by
  cases i' using Fin.lastCases <;> simp [ofNorth, Ne.symm (Fin.castSucc_ne_last _)]

/-- A link of a column ends at its foot. -/
theorem ofNorth_eq_foot_iff {i' : Fin (s.inputs + 1)} {j j' : Fin s.outputs} :
    ofNorth i' j' = foot j ↔ i' = .last _ ∧ j' = j := by
  cases i' using Fin.lastCases <;> simp [ofNorth]

/-- A link of a column is not drained. -/
theorem ofNorth_ne_drain {i : Fin s.inputs} {i' : Fin (s.inputs + 1)} {j' : Fin s.outputs} :
    ofNorth i' j' ≠ drain i := by
  cases i' using Fin.lastCases <;> simp [ofNorth]

end Consumer

namespace Grid

variable {s : Shape}

/-- The second half of a cycle, with its assertions. -/
def consumeInOrder (state : Grid s × Array UInt64) : Option (Grid s × Array UInt64) :=
  (Consumer.order s).foldlM Consumer.pop? state

/-- A column is collected from a grid. -/
def collectFrom (before : Grid s) (collected : Vector Collector s.outputs × Array UInt64)
    (j : Fin s.outputs) : Vector Collector s.outputs × Array UInt64 :=
  collectColumn j (before.leaving j) (before.columnModulus j) collected

/-- What arrives at a cell, latched. -/
def latchedCell (before : Grid s) (i : Fin s.inputs) (j : Fin s.outputs) : Cell :=
  (before.cell i j).latch (arriving (before.west i j.castSucc))
    (arriving (before.north i.castSucc j))

/-- What some of the consumers have made of a grid and an output: their links have been popped, the
cells have latched and the columns are collected, and the rest is as it was. -/
structure Consuming (before : Grid s) (output : Array UInt64) (done : List (Consumer s))
    (state : Grid s × Array UInt64) : Prop where
  cell : ∀ i j, state.1.cell i j =
    if Consumer.cell i j ∈ done then before.latchedCell i j else before.cell i j
  west : ∀ i j, state.1.west i j =
    if Consumer.ofWest i j ∈ done then (before.west i j).pop.2 else before.west i j
  north : ∀ i j, state.1.north i j =
    if Consumer.ofNorth i j ∈ done then (before.north i j).pop.2 else before.north i j
  collected : (state.1.collectors, state.2) =
    (done.filterMap Consumer.foot?).foldl before.collectFrom (before.collectors, output)

namespace Consuming

variable {before : Grid s} {output : Array UInt64} {done : List (Consumer s)}
  {state : Grid s × Array UInt64} (h : Consuming before output done state)
include h

/-- Popping a link of a row that has not been popped. -/
theorem pop_west {i : Fin s.inputs} {j : Fin (s.outputs + 1)}
    (hlink : (before.west i j).toList ≠ []) (hnew : Consumer.ofWest i j ∉ done) :
    (state.1.west i j).pop? = some (arriving (before.west i j), (before.west i j).pop.2) := by
  rw [h.west, if_neg hnew, Link.pop?_of_toList hlink]

/-- Popping a link of a column that has not been popped. -/
theorem pop_north {i : Fin (s.inputs + 1)} {j : Fin s.outputs}
    (hlink : (before.north i j).toList ≠ []) (hnew : Consumer.ofNorth i j ∉ done) :
    (state.1.north i j).pop? = some (arriving (before.north i j), (before.north i j).pop.2) := by
  rw [h.north, if_neg hnew, Link.pop?_of_toList hlink]

/-- A cell keeps its modulus. -/
theorem columnModulus (j : Fin s.outputs) :
    state.1.columnModulus j = before.columnModulus j := by
  have hlast : s.inputs - 1 < s.inputs := Nat.sub_one_lt s.inputs_pos.ne'
  have hcell := congrArg Cell.modulus (h.cell ⟨s.inputs - 1, hlast⟩ j)
  rw [apply_ite Cell.modulus] at hcell
  exact hcell.trans (ite_self _)

/-- A further consumer pops. -/
theorem step (hwest : ∀ i j, (before.west i j).toList ≠ [])
    (hnorth : ∀ i j, (before.north i j).toList ≠ [])
    (hsum : ∀ i j, (before.latchedCell i j).sum < 2 ^ 128) {p : Consumer s} (hp : p ∉ done) :
    ∃ state', p.pop? state = some state' ∧ Consuming before output (done ++ [p]) state' := by
  cases p with
  | cell i j =>
    have hx := h.pop_west (hwest i j.castSucc) (by rwa [Consumer.ofWest_castSucc])
    have hy := h.pop_north (hnorth i.castSucc j) (by rwa [Consumer.ofNorth_castSucc])
    have hlatched : (state.1.cell i j).latch (arriving (before.west i j.castSucc))
        (arriving (before.north i.castSucc j)) = before.latchedCell i j := by
      rw [h.cell, if_neg hp]
      rfl
    have hstep : Consumer.pop? state (.cell i j) = some
        (((state.1.setWest i j.castSucc (before.west i j.castSucc).pop.2).setNorth i.castSucc j
          (before.north i.castSucc j).pop.2).setCell i j (before.latchedCell i j), state.2) := by
      simp only [Consumer.pop?, hx, hy, Option.bind_eq_bind, Option.bind_some, hlatched, hsum,
        if_true]
      rfl
    refine ⟨_, hstep, fun i' j' => ?_, fun i' j' => ?_, fun i' j' => ?_, ?_⟩
    · simp only [cell_setCell, cell_setNorth, cell_setWest, h.cell, List.mem_append,
        List.mem_singleton, Consumer.cell.injEq]
      exact ite_ite_or fun ⟨hi, hj⟩ => by rw [hi, hj]
    · simp only [west_setCell, west_setNorth, west_setWest, h.west, List.mem_append,
        List.mem_singleton, Consumer.ofWest_eq_cell_iff]
      exact ite_ite_or fun ⟨hi, hj⟩ => by rw [hi, hj]
    · simp only [north_setCell, north_setNorth, north_setWest, h.north, List.mem_append,
        List.mem_singleton, Consumer.ofNorth_eq_cell_iff]
      exact ite_ite_or fun ⟨hi, hj⟩ => by rw [hi, hj]
    · rw [List.filterMap_append, List.foldl_append, ← h.collected]
      rfl
  | drain i =>
    have hx := h.pop_west (hwest i (.last _)) (by rwa [Consumer.ofWest_last])
    have hstep : Consumer.pop? state (.drain i) = some
        (state.1.setWest i (.last _) (before.west i (.last _)).pop.2, state.2) := by
      simp only [Consumer.pop?, hx, Option.bind_eq_bind, Option.bind_some]
      rfl
    refine ⟨_, hstep, fun i' j' => ?_, fun i' j' => ?_, fun i' j' => ?_, ?_⟩
    · simp only [cell_setWest, h.cell, List.mem_append, List.mem_singleton, reduceCtorEq, or_false]
    · simp only [west_setWest, h.west, List.mem_append, List.mem_singleton,
        Consumer.ofWest_eq_drain_iff]
      exact ite_ite_or fun ⟨hi, hj⟩ => by rw [hi, hj]
    · simp only [north_setWest, h.north, List.mem_append, List.mem_singleton,
        Consumer.ofNorth_ne_drain, or_false]
    · rw [List.filterMap_append, List.foldl_append, ← h.collected]
      rfl
  | foot j =>
    have hy := h.pop_north (hnorth (.last _) j) (by rwa [Consumer.ofNorth_last])
    have hstep : Consumer.pop? state (.foot j) =
        let collected := before.collectFrom (state.1.collectors, state.2) j
        some ({ state.1.setNorth (.last _) j (before.north (.last _) j).pop.2 with
          collectors := collected.1 }, collected.2) := by
      simp only [Consumer.pop?, hy, Option.bind_eq_bind, Option.bind_some, h.columnModulus]
      rfl
    refine ⟨_, hstep, fun i' j' => ?_, fun i' j' => ?_, fun i' j' => ?_, ?_⟩
    · simp only [List.mem_append, List.mem_singleton, reduceCtorEq, or_false]
      exact h.cell i' j'
    · simp only [List.mem_append, List.mem_singleton, Consumer.ofWest_ne_foot, or_false]
      exact h.west i' j'
    · refine (north_setNorth ..).trans ?_
      simp only [h.north, List.mem_append, List.mem_singleton, Consumer.ofNorth_eq_foot_iff]
      exact ite_ite_or fun ⟨hi, hj⟩ => by rw [hi, hj]
    · rw [List.filterMap_append, List.foldl_append, ← h.collected]
      rfl

end Consuming

/-- With a word in every link, and no accumulator about to overflow, the second half of a cycle
passes its assertions. -/
theorem consumeInOrder_eq {grid : Grid s} (hwest : ∀ i j, (grid.west i j).toList ≠ [])
    (hnorth : ∀ i j, (grid.north i j).toList ≠ [])
    (hsum : ∀ i j, (grid.latchedCell i j).sum < 2 ^ 128) (output : Array UInt64) :
    consumeInOrder (grid, output) = some (grid.consume output) := by
  have hstart : Consuming grid output [] (grid, output) :=
    ⟨fun _ _ => rfl, fun _ _ => rfl, fun _ _ => rfl, rfl⟩
  obtain ⟨state, hrun, h⟩ := foldlM_carries (Consuming grid output) Consumer.nodup_order hstart
    fun _ _ _ hp h => h.step hwest hnorth hsum hp
  have hcollected : (state.1.collectors, state.2) = grid.collectAll output := by
    rw [h.collected, Consumer.filterMap_order, collectAll, Fin.foldl_eq_finRange_foldl]
    rfl
  rw [consumeInOrder, hrun, Option.some_inj]
  refine Prod.ext (ext_views (fun i j => ?_) (fun i j => ?_) (fun i j => ?_) ?_) ?_
  · rw [h.cell, if_pos (Consumer.cell_mem_order i j), cell_consume]
    rfl
  · rw [h.west, if_pos (Consumer.ofWest_mem_order i j), west_consume]
  · rw [h.north, if_pos (Consumer.ofNorth_mem_order i j), north_consume]
  · exact congrArg Prod.fst hcollected
  · exact (congrArg Prod.snd hcollected :)

/-! ### Runs -/

/-- A cycle, with its assertions. -/
def cycleInOrder (input : Array UInt64) (t : ℕ) (state : Grid s × Array UInt64) :
    Option (Grid s × Array UInt64) := do
  let grid ← produceInOrder input t state.1
  consumeInOrder (grid, state.2)

/-- So many cycles, with their assertions. -/
def afterInOrder (input : Array UInt64) : ℕ → Grid s × Array UInt64 →
    Option (Grid s × Array UInt64)
  | 0, state => some state
  | t + 1, state => do
    let state ← afterInOrder input t state
    cycleInOrder input t state

/-- A run, with its assertions: in the end every collector must have kept all rows. -/
def runInOrder (input : Array UInt64) (state : Grid s × Array UInt64) :
    Option (Grid s × Array UInt64) := do
  let state ← afterInOrder input s.cycles state
  if ∀ j : Fin s.outputs, (state.1.collectors.get j).captured = s.rows then some state else none

section Run

variable {input weights moduli output : Array UInt64}

/-- After any number of cycles from rest, all links are empty. -/
theorem links_empty (h : s.Accepts input weights moduli output) (t : ℕ) :
    let grid := (after input t (atRest s weights moduli, output)).1
    (∀ i j, (grid.west i j).toList = []) ∧ ∀ i j, (grid.north i j).toList = [] := by
  have hcells := (spaceTime_after input weights moduli h.output_size t).cells
  exact ⟨hcells.west, hcells.north⟩

/-- After the last cycle every column has kept all rows. -/
theorem captured_eq (h : s.Accepts input weights moduli output) (j : Fin s.outputs) :
    ((after input s.cycles (atRest s weights moduli, output)).1.collectors.get j).captured =
      s.rows := by
  have hcollected := (spaceTime_after input weights moduli h.output_size s.cycles).collected
  refine (congrArg Collector.captured (hcollected.count j)).trans ?_
  simp only [Shape.counted, Shape.cycles]
  omega

/-- After any number of cycles from rest, the next cycle passes its assertions. -/
theorem cycleInOrder_eq (h : s.Accepts input weights moduli output) (t : ℕ) :
    cycleInOrder input t (after input t (atRest s weights moduli, output)) =
      some (after input (t + 1) (atRest s weights moduli, output)) := by
  obtain ⟨hwest, hnorth⟩ := links_empty h t
  have hsum := accumulator_lt h (t + 1)
  rw [after_succ] at hsum ⊢
  generalize after input t (atRest s weights moduli, output) = state at hwest hnorth hsum
  rw [cycleInOrder, produceInOrder_eq hwest hnorth]
  refine consumeInOrder_eq (fun i j => ?_) (fun i j => ?_) (fun i j => ?_) state.2
  · rw [west_produce, Link.toList_push_of_toList (hwest i j)]
    exact List.cons_ne_nil _ _
  · rw [north_produce, Link.toList_push_of_toList (hnorth i j)]
    exact List.cons_ne_nil _ _
  · have hcell := hsum i j
    rwa [cycle, cell_consume] at hcell

/-- Any number of cycles from rest pass their assertions, and are the cycles without them. -/
theorem afterInOrder_eq (h : s.Accepts input weights moduli output) (t : ℕ) :
    afterInOrder input t (atRest s weights moduli, output) =
      some (after input t (atRest s weights moduli, output)) := by
  induction t with
  | zero => rfl
  | succ t ih =>
    rw [afterInOrder, ih]
    exact cycleInOrder_eq h t

/-- A run from rest passes its assertions, and is the run without them. -/
theorem runInOrder_eq (h : s.Accepts input weights moduli output) :
    runInOrder input (atRest s weights moduli, output) =
      some (after input s.cycles (atRest s weights moduli, output)) := by
  rw [runInOrder, afterInOrder_eq h]
  exact if_pos (captured_eq h)

end Run

/-- **The assertions of a run.** Whatever operands a product accepts, in every cycle of its run no
push is refused and no pop finds a link empty, in the rows and in the columns: every link takes the
word that is pushed into it, holds this one word between the two halves of the cycle, and is empty
at the end. No accumulator ever reaches `2 ^ 128`, and in the end every column has kept as many sums
as there are rows. So the run with all assertions, step by step in their order, does not give up and
is the run without them. -/
theorem multiply_asserts {input weights moduli output : Array UInt64} {p : Product}
    (h : multiply s input weights moduli output = .ok p) :
    ∃ grid, install s weights moduli = .ok grid ∧
      (∀ t < s.cycles,
        let before := (after input t (grid, output)).1
        let between := produce input t before
        let next := (after input (t + 1) (grid, output)).1
        (∀ i j, ((before.west i j).push (before.eastward input t i j)).1 = true ∧
          (between.west i j).count = 1 ∧ (between.west i j).pop.1.isSome ∧
            (next.west i j).isEmpty) ∧
        ∀ i j, ((before.north i j).push (before.southward j i)).1 = true ∧
          (between.north i j).count = 1 ∧ (between.north i j).pop.1.isSome ∧
            (next.north i j).isEmpty) ∧
      (∀ t ≤ s.cycles, ∀ i j, ((after input t (grid, output)).1.cell i j).sum < 2 ^ 128) ∧
      (∀ j, ((after input s.cycles (grid, output)).1.collectors.get j).captured = s.rows) ∧
      runInOrder input (grid, output) = some (after input s.cycles (grid, output)) ∧
      p.output = (after input s.cycles (grid, output)).2 := by
  obtain ⟨haccepts, rfl⟩ := multiply_eq_ok_iff.1 h
  refine ⟨atRest s weights moduli, ?_, fun t _ => ?_, fun t _ => accumulator_lt haccepts t,
    captured_eq haccepts, runInOrder_eq haccepts, rfl⟩
  · exact install_eq_ok_iff.2 ⟨⟨haccepts.weights_size, haccepts.moduli_size, haccepts.weight_lt,
      haccepts.modulus_ne_zero⟩, rfl⟩
  · obtain ⟨hwest, hnorth⟩ := links_empty haccepts t
    obtain ⟨hwest', hnorth'⟩ := links_empty haccepts (t + 1)
    intro before between next
    refine ⟨fun i j => ?_, fun i j => ?_⟩
    · obtain ⟨hcount, hpop⟩ := Link.holds_one (hwest i j) (before.eastward input t i j)
      rw [← west_produce] at hcount hpop
      exact ⟨Link.push_fst_of_toList (hwest i j) _, hcount, hpop,
        Link.isEmpty_of_toList (hwest' i j)⟩
    · obtain ⟨hcount, hpop⟩ := Link.holds_one (hnorth i j) (before.southward j i)
      rw [← north_produce] at hcount hpop
      exact ⟨Link.push_fst_of_toList (hnorth i j) _, hcount, hpop,
        Link.isEmpty_of_toList (hnorth' i j)⟩

/-- Two rows through a grid of four cells pass all assertions, and every column keeps two sums. -/
theorem multiply_asserts_two_rows :
    let s : Shape := ⟨2, 2, 2, by decide, by decide, by decide, by decide⟩
    ∃ p grid, multiply s #[1, 2, 3, 4] #[5, 6, 7, 8] #[10, 7] #[0, 0, 0, 0] = .ok p ∧
      install s #[5, 6, 7, 8] #[10, 7] = .ok grid ∧
      (∀ j, ((after #[1, 2, 3, 4] s.cycles (grid, #[0, 0, 0, 0])).1.collectors.get j).captured =
        s.rows) ∧
      (runInOrder #[1, 2, 3, 4] (grid, #[0, 0, 0, 0])).isSome := by
  intro s
  have haccepts : s.Accepts #[1, 2, 3, 4] #[5, 6, 7, 8] #[10, 7] #[0, 0, 0, 0] :=
    ⟨by decide, by decide, by decide, by decide, by decide, by decide, by decide⟩
  have hp := multiply_eq_ok_iff.2 ⟨haccepts, rfl⟩
  obtain ⟨grid, hgrid, -, -, hcaptured, hrun, -⟩ := multiply_asserts hp
  exact ⟨_, grid, hp, hgrid, hcaptured, Option.isSome_of_eq_some hrun⟩

end Grid

end RnsEngine
