import Mathlib.Data.List.Forall2

/-!
# Programs that may be refused

A check is a program that gives a result or a reason against one. The first lemmas take a program
apart that has succeeded: a sequence has succeeded in either step, a traversal on every element.

What a program is refused for is said by a list of checks (`reasonUnless`), of which the first that
does not pass counts (`resultUnless_findSome?_cons`).
-/

namespace RnsEngine

universe u

variable {ε α β : Type u}

/-- After a step that succeeds, a sequence goes on with its result. -/
theorem ok_bind (a : α) (f : α → Except ε β) : Except.ok a >>= f = f a := rfl

/-- After a step that is refused, a sequence is refused. -/
theorem error_bind (e : ε) (f : α → Except ε β) : Except.error e >>= f = .error e := rfl

/-- A program that is found to succeed has a result. -/
theorem exists_eq_ok_of_isOk {x : Except ε α} (h : x.isOk = true) : ∃ a, x = .ok a := by
  cases x with
  | ok a => exact ⟨a, rfl⟩
  | error e => cases h

/-- A sequence of two steps succeeds exactly when both do. -/
theorem bind_eq_ok_iff {x : Except ε α} {f : α → Except ε β} {b : β} :
    x >>= f = .ok b ↔ ∃ a, x = .ok a ∧ f a = .ok b := by
  cases x <;> simp [bind, Except.bind]

/-- A program succeeds when it is refused for nothing. -/
theorem exists_eq_ok_iff {x : Except ε α} : (∃ a, x = .ok a) ↔ ∀ e, x ≠ .error e := by
  cases x <;> simp

/-- A sequence of two steps is refused for what the first is refused for, or else the second. -/
theorem bind_eq_error_iff {x : Except ε α} {f : α → Except ε β} {e : ε} :
    x >>= f = .error e ↔ x = .error e ∨ ∃ a, x = .ok a ∧ f a = .error e := by
  cases x <;> simp [bind, Except.bind]

/-- A traversal succeeds exactly when the step does on every element, and then the results are
those of the steps. -/
theorem mapM_eq_ok_iff {f : α → Except ε β} {xs : List α} :
    ∀ {ys : List β}, xs.mapM f = .ok ys ↔ List.Forall₂ (fun x y => f x = .ok y) xs ys := by
  induction xs with
  | nil =>
    intro ys
    rw [List.mapM_nil, List.forall₂_nil_left_iff]
    exact ⟨fun h => (Except.ok.inj h).symm, fun h => congrArg Except.ok h.symm⟩
  | cons x xs ih =>
    intro ys
    simp only [List.mapM_cons, bind_eq_ok_iff, List.forall₂_cons_left_iff, ih]
    constructor
    · rintro ⟨y, hy, ys, hys, h⟩
      exact ⟨y, ys, hy, hys, (Except.ok.inj h).symm⟩
    · rintro ⟨y, ys, hy, hys, rfl⟩
      exact ⟨y, hy, ys, hys, rfl⟩

/-- What every success of a step gives, a successful traversal gives for all results, and the
results stand in the order of the elements. -/
theorem mapM_eq_ok_spec {f : α → Except ε β} {origin : β → α} {P : β → Prop}
    (hf : ∀ x y, f x = .ok y → origin y = x ∧ P y) {xs : List α} {ys : List β}
    (h : xs.mapM f = .ok ys) : ys.map origin = xs ∧ ∀ y ∈ ys, P y := by
  have hall := mapM_eq_ok_iff.1 h
  clear h
  induction hall with
  | nil => exact ⟨rfl, List.forall_mem_nil P⟩
  | cons hy _ ih =>
    obtain ⟨hx, hP⟩ := hf _ _ hy
    exact ⟨by rw [List.map_cons, hx, ih.1], List.forall_mem_cons.2 ⟨hP, ih.2⟩⟩

/-- A traversal succeeds when the step does on every element. -/
theorem exists_mapM_eq_ok {f : α → Except ε β} {xs : List α} (h : ∀ x ∈ xs, ∃ y, f x = .ok y) :
    ∃ ys, xs.mapM f = .ok ys := by
  induction xs with
  | nil => exact ⟨[], List.mapM_nil⟩
  | cons x xs ih =>
    obtain ⟨y, hy⟩ := h x List.mem_cons_self
    obtain ⟨ys, hys⟩ := ih fun x hx => h x (List.mem_cons_of_mem _ hx)
    exact ⟨y :: ys, by rw [List.mapM_cons, hy, ok_bind, hys, ok_bind]; rfl⟩

/-- A traversal has the results of its steps. -/
theorem mapM_eq_ok_map {f : α → Except ε β} {result : α → β} {xs : List α}
    (h : ∀ x ∈ xs, f x = .ok (result x)) : xs.mapM f = .ok (xs.map result) :=
  mapM_eq_ok_iff.2 (List.forall₂_map_right_iff.2 (List.forall₂_same.2 h))

/-- A traversal is refused for what the step is refused for on the first such element. -/
theorem mapM_eq_error {f : α → Except ε β} {e : ε} {xs : List α} :
    ∀ {i : ℕ} (hi : i < xs.length), f xs[i] = .error e →
      (∀ k (hk : k < i), ∃ y, f xs[k] = .ok y) → xs.mapM f = .error e := by
  induction xs with
  | nil => exact fun hi => absurd hi (Nat.not_lt_zero _)
  | cons x xs ih =>
    intro i hi he hbefore
    rw [List.mapM_cons]
    cases i with
    | zero =>
      rw [List.getElem_cons_zero] at he
      rw [he, error_bind]
    | succ i =>
      obtain ⟨y, hy⟩ := hbefore 0 (Nat.succ_pos i)
      rw [List.getElem_cons_zero] at hy
      rw [hy, ok_bind, ih (Nat.lt_of_succ_lt_succ hi) he fun k hk =>
        hbefore (k + 1) (Nat.succ_lt_succ hk), error_bind]

/-- A traversal is refused for what its first step is refused for, or else the rest. -/
theorem mapM_cons_eq_error_iff {f : α → Except ε β} {x : α} {xs : List α} {e : ε} :
    (x :: xs).mapM f = .error e ↔
      f x = .error e ∨ (∃ y, f x = .ok y) ∧ xs.mapM f = .error e := by
  have hrest (y : β) :
      (xs.mapM f >>= fun ys => pure (y :: ys)) = .error e ↔ xs.mapM f = .error e := by
    cases xs.mapM f <;> simp [bind, Except.bind, pure, Except.pure]
  rw [List.mapM_cons, bind_eq_error_iff, ← exists_and_right]
  simp only [hrest]

/-- Traversals whose steps are refused alike are refused alike. -/
theorem mapM_eq_error_congr {γ : Type u} {f : α → Except ε β} {f' : α → Except ε γ}
    (h : ∀ x e, f x = .error e ↔ f' x = .error e) (xs : List α) (e : ε) :
    xs.mapM f = .error e ↔ xs.mapM f' = .error e := by
  have hok (x : α) : (∃ y, f x = .ok y) ↔ ∃ y, f' x = .ok y := by
    rw [exists_eq_ok_iff, exists_eq_ok_iff]
    exact forall_congr' fun e => not_congr (h x e)
  induction xs with
  | nil =>
    rw [List.mapM_nil, List.mapM_nil]
    exact ⟨nofun, nofun⟩
  | cons x xs ih =>
    rw [mapM_cons_eq_error_iff, mapM_cons_eq_error_iff]
    exact or_congr (h x e) (and_congr (hok x) ih)

/-- The traversal of a vector is the one of its list. -/
theorem mapM_toList {n : ℕ} {f : α → Except ε β} (xs : Vector α n) :
    (fun ys : Vector β n => ys.toArray.toList) <$> xs.mapM f = xs.toArray.toList.mapM f := by
  rw [← Array.toList_mapM, ← Vector.toArray_mapM, ← comp_map]
  rfl

/-- A successful traversal of a vector has the result of the step in every place. -/
theorem get_of_mapM_eq_ok {n : ℕ} {f : α → Except ε β} {xs : Vector α n} {ys : Vector β n}
    (h : xs.mapM f = .ok ys) (i : Fin n) : f (xs.get i) = .ok (ys.get i) := by
  have hlist := mapM_toList (f := f) xs
  rw [h] at hlist
  obtain ⟨-, hstep⟩ := List.forall₂_iff_get.1 (mapM_eq_ok_iff.1 hlist.symm)
  exact hstep i (by simp) (by simp)

/-- The traversal of a vector succeeds when the step does on every element. -/
theorem exists_vector_mapM_eq_ok {n : ℕ} {f : α → Except ε β} {xs : Vector α n}
    (h : ∀ x ∈ xs.toArray.toList, ∃ y, f x = .ok y) : ∃ ys, xs.mapM f = .ok ys := by
  obtain ⟨ys, hys⟩ := exists_mapM_eq_ok h
  rw [← mapM_toList] at hys
  cases hmap : xs.mapM f with
  | ok ys => exact ⟨ys, rfl⟩
  | error e => rw [hmap] at hys; cases hys

/-- The traversal of a vector is refused as the one of its list. -/
theorem vector_mapM_eq_error {n : ℕ} {f : α → Except ε β} {xs : Vector α n} {e : ε}
    (h : xs.toArray.toList.mapM f = .error e) : xs.mapM f = .error e := by
  rw [← mapM_toList] at h
  cases hmap : xs.mapM f with
  | ok ys => rw [hmap] at h; cases h
  | error e' => rw [hmap] at h; exact congrArg Except.error (Except.error.inj h)

/-! ### Programs on a state

A program on a state keeps what it has changed when it is refused. -/

section States

variable {ε σ α β : Type} {x : ExceptT ε (StateM σ) α} {f : α → ExceptT ε (StateM σ) β} {s s' : σ}

/-- After a step that succeeds, a program goes on with its result. -/
theorem bind_apply_of_ok {a : α} (h : x s = (.ok a, s')) : (x >>= f) s = f a s' := by
  simp [bind, ExceptT.bind, ExceptT.mk, ExceptT.bindCont, StateT.bind, h]

/-- After a step that is refused, a program is refused with it. -/
theorem bind_apply_of_error {e : ε} (h : x s = (.error e, s')) :
    (x >>= f) s = (.error e, s') := by
  simp [bind, ExceptT.bind, ExceptT.mk, ExceptT.bindCont, StateT.bind, h]
  rfl

end States

/-! ### Reasons -/

/-- A check, as the reason that it finds against its input. -/
def reasonUnless (p : Prop) [Decidable p] (reason : ε) : Option ε := if p then none else some reason

/-- A result, unless there is a reason against it. -/
def resultUnless (reason : Option ε) (a : α) : Except ε α :=
  match reason with
  | some e => .error e
  | none => .ok a

/-- The first reason of a list counts: its checks are made one after the other. -/
theorem resultUnless_findSome?_cons (first : Option ε) (others : List (Option ε)) (a : α) :
    resultUnless ((first :: others).findSome? id) a =
      resultUnless first PUnit.unit >>= fun _ => resultUnless (others.findSome? id) a := by
  cases first <;> rfl

/-- Without a reason there is the result. -/
theorem resultUnless_findSome?_nil (a : α) :
    resultUnless (([] : List (Option ε)).findSome? id) a = .ok a := rfl

/-- There is a result when there is no reason against it. -/
theorem resultUnless_eq_ok_iff {reason : Option ε} {a : α} :
    resultUnless reason a = .ok a ↔ reason = none := by
  cases reason <;> simp [resultUnless]

/-- What a result is refused for is the reason against it. -/
theorem resultUnless_eq_error_iff {reason : Option ε} {a : α} {e : ε} :
    resultUnless reason a = .error e ↔ reason = some e := by
  cases reason <;> simp [resultUnless]

/-- The reason against a result does not depend on the result. -/
theorem map_resultUnless (reason : Option ε) (f : α → β) (a : α) :
    (resultUnless reason a).map f = resultUnless reason (f a) := by
  cases reason <;> rfl

/-- A check that passes is no reason against a result. -/
theorem resultUnless_of_holds {p : Prop} [Decidable p] (h : p) (reason : ε) (a : α) :
    resultUnless (reasonUnless p reason) a = .ok a := by
  rw [reasonUnless, if_pos h]
  rfl

/-- A check that does not pass is the reason against a result. -/
theorem resultUnless_of_not_holds {p : Prop} [Decidable p] (h : ¬ p) (reason : ε) (a : α) :
    resultUnless (reasonUnless p reason) a = .error reason := by
  rw [reasonUnless, if_neg h]
  rfl

/-- A traversal by checks that leave the state alone is refused for the first reason that is found.
-/
theorem forM_check {ε σ α : Type} {check : α → ExceptT ε (StateM σ) PUnit} {find : α → Option ε}
    {s : σ} (h : ∀ a, check a s = (resultUnless (find a) ⟨⟩, s)) (l : List α) :
    (forM l check) s = (resultUnless (l.findSome? find) ⟨⟩, s) := by
  induction l with
  | nil => rfl
  | cons a l ih =>
    rw [List.forM_cons, List.findSome?_cons]
    have hfirst := h a
    cases hreason : find a with
    | some e =>
      rw [hreason] at hfirst
      exact bind_apply_of_error hfirst
    | none =>
      rw [hreason] at hfirst
      exact (bind_apply_of_ok hfirst).trans ih

end RnsEngine
