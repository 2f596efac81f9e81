import Mathlib.Order.Bounds.Basic
import RnsEngine.Galois.Steps
import RnsEngine.Proofs.Galois.Inverse
import RnsEngine.Proofs.Refusal

/-!
# Tables of exponents

The tables that are built hold exponents, odd numbers below the order
(`GaloisSteps.Built.exponents`). Exponents that are given stand in their table reduced, one after
the other (`GaloisSteps.ofElements_spec`).

An exponent has just one inverse below the order. So looking for the inverse by its value never
fails, and finds the first step that undoes a given one (`GaloisSteps.inverseStep_spec`).
-/

namespace RnsEngine

/-- Numbers keep their parity modulo the order. -/
theorem Geometry.odd_mod_order_iff (g : Geometry) {n : ℕ} : Odd (n % g.order) ↔ Odd n := by
  rw [Nat.odd_iff, Nat.odd_iff, order, Nat.mod_mul_right_mod]

namespace GaloisSteps

variable {g : Geometry} {steps : GaloisSteps}

/-! ### Tables that are built -/

/-- The tables of a geometry: its rotations, and exponents that have been accepted. -/
inductive Built (g : Geometry) : GaloisSteps → Prop
  | rotations : Built g (rotations g)
  | ofElements {elements : List ℕ} {steps : GaloisSteps}
      (h : GaloisSteps.ofElements g elements = .ok steps) : Built g steps

/-- An exponent as it stands in a table: odd, and below the order. -/
structure Exponent (g : Geometry) (k : ℕ) : Prop where
  odd : Odd k
  lt_order : k < g.order

/-- Odd numbers are exponents once they are reduced. -/
theorem exponent_mod (g : Geometry) {k : ℕ} (hk : Odd k) : Exponent g (k % g.order) :=
  ⟨g.odd_mod_order_iff.2 hk, Nat.mod_lt _ (Nat.zero_lt_of_lt g.one_lt_order)⟩

/-- Multiplying by the generator leads from exponents to exponents. -/
theorem exponent_of_mem_powersFrom {count : ℕ} :
    ∀ {k : ℕ}, Exponent g k → ∀ e ∈ powersFrom g.order count k, Exponent g e := by
  induction count with
  | zero => exact fun _ e he => absurd he List.not_mem_nil
  | succ count ih =>
    intro k hk
    have hnext : Odd (k * generator) := hk.odd.mul (by decide)
    exact List.forall_mem_cons.2 ⟨hk, ih (exponent_mod g hnext)⟩

/-- Elements that have been accepted are odd, and stand in the table reduced. -/
theorem ofElements_spec {elements : List ℕ} (h : ofElements g elements = .ok steps) :
    steps.order = g.order ∧ (∀ k ∈ elements, Odd k) ∧
      steps.elements.toList = elements.map (· % g.order) := by
  obtain ⟨reduced, hreduced, hsteps⟩ := bind_eq_ok_iff.1 h
  obtain rfl := Except.ok.inj hsteps
  have hall := mapM_eq_ok_iff.1 hreduced
  clear h hreduced hsteps
  refine ⟨rfl, ?_⟩
  induction hall with
  | nil => exact ⟨List.forall_mem_nil _, rfl⟩
  | cons hx _ ih =>
    split at hx
    · cases hx
    · next hodd =>
      obtain rfl := Except.ok.inj hx
      rw [← ne_eq, Nat.mod_two_ne_zero, ← Nat.odd_iff] at hodd
      refine ⟨List.forall_mem_cons.2 ⟨hodd, ih.1⟩, ?_⟩
      rw [List.map_cons, ← ih.2]

/-- A table that is built has the order of its geometry. -/
theorem Built.order_eq (h : Built g steps) : steps.order = g.order := by
  cases h with
  | rotations => rfl
  | ofElements h => exact (ofElements_spec h).1

/-- A table that is built holds exponents. -/
theorem Built.exponents (h : Built g steps) {step k : ℕ} (hk : steps.elements[step]? = some k) :
    Exponent g k := by
  have hmem : k ∈ steps.elements.toList := Array.mem_toList_iff.2 (Array.mem_of_getElem? hk)
  cases h with
  | rotations =>
    exact exponent_of_mem_powersFrom ⟨odd_one, g.one_lt_order⟩ k hmem
  | ofElements h =>
    obtain ⟨-, hodd, helements⟩ := ofElements_spec h
    rw [helements] at hmem
    obtain ⟨e, he, rfl⟩ := List.mem_map.1 hmem
    exact exponent_mod g (hodd e he)

/-! ### Inverse steps -/

/-- A search finds the least place where the test holds. -/
theorem findIdx?_eq_some_iff_isLeast {α : Type} {l : List α} {p : α → Bool} {t : ℕ} :
    l.findIdx? p = some t ↔ IsLeast {t | ∃ x, l[t]? = some x ∧ p x = true} t := by
  rw [List.findIdx?_eq_some_iff_getElem]
  constructor
  · rintro ⟨hlt, hfound, hbefore⟩
    refine ⟨⟨_, List.getElem?_eq_getElem hlt, hfound⟩, ?_⟩
    rintro u ⟨x, hx, hu⟩
    obtain ⟨hlt', rfl⟩ := List.getElem?_eq_some_iff.1 hx
    exact Nat.le_of_not_lt fun hut => hbefore u hut hu
  · rintro ⟨⟨x, hx, hfound⟩, hleast⟩
    obtain ⟨hlt, rfl⟩ := List.getElem?_eq_some_iff.1 hx
    refine ⟨hlt, hfound, fun u hut hu => Nat.not_le_of_lt hut (hleast ⟨_, ?_, hu⟩)⟩
    exact List.getElem?_eq_getElem (hut.trans hlt)

/-- The steps that undo a given one. -/
def inverses (g : Geometry) (steps : GaloisSteps) (step : ℕ) : Set ℕ :=
  {t | ∃ k e, steps.elements[step]? = some k ∧ steps.elements[t]? = some e ∧ k * e % g.order = 1}

/-- An exponent has one inverse among the exponents, which the iteration finds. -/
theorem exists_galoisInverse {k : ℕ} (hk : Exponent g k) :
    ∃ x, galoisInverse (UInt64.ofNat k) (UInt64.ofNat g.order) = .ok x ∧
      ∀ e, e < g.order → (e = x.toNat ↔ k * e % g.order = 1) := by
  have hwordOrder : (UInt64.ofNat g.order).toNat = g.order :=
    UInt64.toNat_ofNat_of_lt' g.order_lt
  have hword : (UInt64.ofNat k).toNat = k :=
    UInt64.toNat_ofNat_of_lt' (hk.lt_order.trans g.order_lt)
  obtain ⟨x, hx, hinverse⟩ := galoisInverse_spec (k := UInt64.ofNat k)
    ⟨_, hwordOrder.trans g.order_eq⟩ (hword.symm ▸ hk.odd)
  rw [hwordOrder, hword] at hinverse
  refine ⟨x, hx, fun e he => ?_⟩
  rw [← hinverse, and_iff_right he, Nat.ModEq, Nat.mod_eq_of_lt g.one_lt_order]

/-- **Inverse steps.** Looking for the step that undoes a given one never fails, and finds the first
one that there is. -/
theorem inverseStep_spec (h : Built g steps) {step : ℕ} (hstep : step < steps.size) :
    ∃ found, steps.inverseStep step = .ok found ∧
      ∀ t, found = some t ↔ IsLeast (inverses g steps step) t := by
  have hk : steps.elements[step]? = some steps.elements[step] := Array.getElem?_eq_getElem hstep
  obtain ⟨x, hx, hinverse⟩ := exists_galoisInverse (h.exponents hk)
  refine ⟨steps.elements.toList.findIdx? fun e => decide (e = x.toNat), ?_, fun t => ?_⟩
  · simp only [inverseStep, element, hk, h.order_eq, bind, Except.bind, hx]
    rfl
  -- a step undoes the given one when the inverse stands there
  have hplaces : inverses g steps step =
      {t | ∃ e, steps.elements.toList[t]? = some e ∧ decide (e = x.toNat) = true} := by
    ext t
    simp only [Set.mem_ofPred_eq, Array.getElem?_toList, decide_eq_true_eq]
    constructor
    · rintro ⟨k, e, hk', he, hone⟩
      obtain rfl := Option.some.inj (hk.symm.trans hk')
      exact ⟨e, he, (hinverse e (h.exponents he).lt_order).2 hone⟩
    · rintro ⟨e, he, heq⟩
      exact ⟨_, e, hk, he, (hinverse e (h.exponents he).lt_order).1 heq⟩
  rw [hplaces, findIdx?_eq_some_iff_isLeast]

end GaloisSteps

end RnsEngine
