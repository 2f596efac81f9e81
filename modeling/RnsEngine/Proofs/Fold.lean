import Mathlib.Algebra.Group.Nat.Defs
import Mathlib.Data.List.FinRange
import Mathlib.Data.Nat.Notation
import RnsEngine.Word.Bits

/-!
# Counted folds

The loops of the engine are folds over a counter. A statement about a whole loop follows from a
property of counter and state that every step carries on: `foldl_carries` for the counters of
type `Fin m`, `fold_carries` for natural numbers. Where three runs of one loop are compared, a
relation between their states takes the place of the property (`foldl_relates`). A loop that changes
the leading words of a vector in their places changes each by itself (`get_foldl_set`), and a loop
through two lists side by side goes as far as the shorter one (`foldl_zip`).

One loop occurs twice in the library, on words and on natural numbers: a power is computed from
the binary digits of its exponent, lowest digit first. `view_binaryPower` is about both. It sees
the numbers through a map to a monoid, which need only respect products of admissible numbers.
-/

namespace RnsEngine

universe u v

/-- A property that every step of a fold carries from one count to the next holds at the end. -/
theorem foldl_carries {σ : Type u} (P : ℕ → σ → Prop) :
    ∀ {m : ℕ} (f : σ → Fin m → σ) {s : σ}, P 0 s →
      (∀ (i : Fin m) (s : σ), P i.val s → P (i.val + 1) (f s i)) → P m (Fin.foldl m f s)
  | 0, _, _, hs, _ => by rwa [Fin.foldl_zero]
  | m + 1, f, _, hs, hf => by
    rw [Fin.foldl_succ_last]
    exact hf (.last m) _ (foldl_carries P _ hs fun i => hf i.castSucc)

/-- The same for a fold over natural numbers. -/
theorem fold_carries {σ : Type u} (P : ℕ → σ → Prop) :
    ∀ {m : ℕ} (f : (i : ℕ) → i < m → σ → σ) {s : σ}, P 0 s →
      (∀ (i : ℕ) (hi : i < m) (s : σ), P i s → P (i + 1) (f i hi s)) → P m (Nat.fold m f s)
  | 0, _, _, hs, _ => by rwa [Nat.fold_zero]
  | m + 1, f, _, hs, hf => by
    rw [Nat.fold_succ]
    exact hf m _ _ (fold_carries P _ hs fun i hi => hf i _)

/-- A relation between three states that every step keeps holds after the three folds. -/
theorem foldl_relates {σ : Type u} (R : σ → σ → σ → Prop) :
    ∀ {m : ℕ} (f : σ → Fin m → σ) {x y z : σ}, R x y z →
      (∀ (i : Fin m) (x y z : σ), R x y z → R (f x i) (f y i) (f z i)) →
        R (Fin.foldl m f x) (Fin.foldl m f y) (Fin.foldl m f z)
  | 0, _, _, _, _, h, _ => by simpa only [Fin.foldl_zero] using h
  | m + 1, f, _, _, _, h, hf => by
    simp only [Fin.foldl_succ_last]
    exact hf (.last m) _ _ _ (foldl_relates R _ h fun i => hf i.castSucc)

/-- A fold over joined lists is a fold in a fold. -/
theorem foldlM_flatMap {m : Type u → Type v} [Monad m] [LawfulMonad m] {σ : Type u}
    {α β : Type} (f : σ → β → m σ) (lists : α → List β) (l : List α) (s : σ) :
    (l.flatMap lists).foldlM f s = l.foldlM (fun s a => (lists a).foldlM f s) s := by
  induction l generalizing s with
  | nil => rfl
  | cons a l ih => simp only [List.flatMap_cons, List.foldlM_append, List.foldlM_cons, ih]

/-! ### Writing in place -/

/-- An entry of a vector in which one entry has been replaced. -/
theorem get_set {α : Type} {n : ℕ} (v : Vector α n) (i i' : Fin n) (x : α) :
    (v.set i.val x i.isLt).get i' = if i' = i then x else v.get i' := by
  by_cases h : i' = i
  · subst h
    rw [if_pos rfl]
    exact Vector.getElem_set_self _
  · rw [if_neg h]
    exact Vector.getElem_set_ne _ _ fun hval => h (Fin.ext hval.symm)

/-- Changing the leading words of a vector one after the other, each in its place, changes each by
itself and leaves the others alone. -/
theorem get_foldl_set {α : Type} {m n : ℕ} (hm : m ≤ n) (f : Fin m → α → α) (v : Vector α n)
    (k : Fin n) :
    (Fin.foldl m (fun v i => v.set i.val (f i (v.get (i.castLE hm))) (i.castLE hm).isLt) v).get k =
      if hk : k.val < m then f ⟨k.val, hk⟩ (v.get k) else v.get k := by
  -- the words that have had their turn are changed, the others are those of before
  have hall := foldl_carries
    (fun count (w : Vector α n) => ∀ k : Fin n, w.get k =
      if hk : k.val < m ∧ k.val < count then f ⟨k.val, hk.1⟩ (v.get k) else v.get k)
    (fun v i => v.set i.val (f i (v.get (i.castLE hm))) (i.castLE hm).isLt) (s := v)
    (fun k => by simp) fun i w hw k => ?_
  · rw [hall k]
    simp only [and_self]
  · refine (get_set w (i.castLE hm) k _).trans ?_
    by_cases hk : k = i.castLE hm
    · subst hk
      rw [if_pos rfl, hw, dif_neg (by simp), dif_pos ⟨i.isLt, Nat.lt_succ_self _⟩]
      rfl
    · have hval : k.val ≠ i.val := fun heq => hk (Fin.ext heq)
      have hlt : k.val < i.val + 1 ↔ k.val < i.val := by omega
      rw [if_neg hk, hw k]
      simp only [hlt]

/-- Changes every word of a vector in its place, one after the other. -/
def changeEach {α : Type} {n : ℕ} (f : Fin n → α → α) (v : Vector α n) : Vector α n :=
  Fin.foldl n (fun v k => v.set k.val (f k (v.get k)) k.isLt) v

/-- Changing word after word in its place changes each by itself. -/
theorem foldl_set_get {α : Type} {n : ℕ} (f : Fin n → α → α) (v : Vector α n) :
    Fin.foldl n (fun v k => v.set k.val (f k (v.get k)) k.isLt) v =
      Vector.ofFn fun k => f k (v.get k) := by
  refine Vector.ext fun k hk => ?_
  rw [Vector.getElem_ofFn]
  exact (get_foldl_set (Nat.le_refl n) f v ⟨k, hk⟩).trans (dif_pos hk)

/-- Two lists are walked through side by side as far as the shorter one goes. -/
theorem foldl_zip {σ : Type u} {α β : Type} (f : σ → α × β → σ) {xs : List α} {ys : List β} {m : ℕ}
    (hx : m ≤ xs.length) (hy : m ≤ ys.length) (hm : m = xs.length ∨ m = ys.length) (s : σ) :
    (xs.zip ys).foldl f s = Fin.foldl m (fun s i =>
      f s (xs.get (i.castLE hx), ys.get (i.castLE hy))) s := by
  have hzip : xs.zip ys =
      (List.finRange m).map fun i => (xs.get (i.castLE hx), ys.get (i.castLE hy)) := by
    refine List.ext_getElem ?_ fun i hi hi' => ?_
    · rw [List.length_zip, List.length_map, List.length_finRange]
      omega
    · simp
  rw [hzip, List.foldl_map, Fin.foldl_eq_finRange_foldl]

/-! ### Powers -/

section BinaryPower

variable {σ : Type u} {M : Type v} [Monoid M] (mul : σ → σ → σ) (view : σ → M) (good : σ → Prop)

/-- One digit of the exponent: the second component runs through the repeated squares, the first
collects those whose digit is set. -/
def binaryPowerStep (e digit : ℕ) (s : σ × σ) : σ × σ :=
  (if e.testBit digit then mul s.1 s.2 else s.1, mul s.2 s.2)

/-- What is known of the two components after so many digits. -/
structure BinaryPower (base : M) (e digits : ℕ) (s : σ × σ) : Prop where
  good_fst : good s.1
  good_snd : good s.2
  view_fst : view s.1 = base ^ (e % 2 ^ digits)
  view_snd : view s.2 = base ^ 2 ^ digits

/-- A digit more. -/
theorem BinaryPower.step {mul view good} (hgood : ∀ a b, good a → good b → good (mul a b))
    (hview : ∀ a b, good a → good b → view (mul a b) = view a * view b) {base : M} {e d : ℕ}
    {s : σ × σ} (h : BinaryPower view good base e d s) :
    BinaryPower view good base e (d + 1) (binaryPowerStep mul e d s) := by
  obtain ⟨hg1, hg2, hv1, hv2⟩ := h
  have hsq : view (mul s.2 s.2) = base ^ 2 ^ (d + 1) := by
    rw [hview _ _ hg2 hg2, hv2, ← pow_add, ← Nat.two_mul, ← Nat.pow_succ']
  have hmod : e % 2 ^ (d + 1) = e % 2 ^ d + 2 ^ d * (e.testBit d).toNat := by
    rw [Nat.mod_pow_succ, Nat.toNat_testBit]
  -- a digit that is set takes the square in, one that is not leaves the exponent as it was
  unfold binaryPowerStep
  split
  · next hbit =>
    refine ⟨hgood _ _ hg1 hg2, hgood _ _ hg2 hg2, ?_, hsq⟩
    rw [hview _ _ hg1 hg2, hv1, hv2, ← pow_add, hmod, hbit, Bool.toNat_true, Nat.mul_one]
  · next hbit =>
    refine ⟨hg1, hgood _ _ hg2 hg2, ?_, hsq⟩
    rw [hv1, hmod, Bool.eq_false_iff.2 hbit, Bool.toNat_false, Nat.mul_zero,
      Nat.add_zero]

/-- **Binary powers.** The loop over all digits of an exponent computes an admissible number,
which is seen as the power of the base. -/
theorem view_binaryPower (hgood : ∀ a b, good a → good b → good (mul a b))
    (hview : ∀ a b, good a → good b → view (mul a b) = view a * view b) (one x : σ)
    (hone : good one) (hx : good x) (hview_one : view one = 1) (e : ℕ) :
    let r := (Nat.fold (bitLength e) (fun digit _ s => binaryPowerStep mul e digit s) (one, x)).1
    good r ∧ view r = view x ^ e := by
  have hend := fold_carries (BinaryPower view good (view x) e)
    (fun digit (_ : digit < bitLength e) s => binaryPowerStep mul e digit s) (s := (one, x))
    ⟨hone, hx, by simp [hview_one, Nat.mod_one], by simp⟩ (fun d _ s h => h.step hgood hview)
  refine ⟨hend.good_fst, ?_⟩
  rw [hend.view_fst, Nat.mod_eq_of_lt (lt_two_pow_bitLength e)]

end BinaryPower

end RnsEngine
