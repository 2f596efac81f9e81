/-!
# Scattering

A crossbar writes every incoming value at a destination of its own. `scatter` does so one value
after the other. Where no two destinations agree the order does not show: the value of `i` is
found at the destination of `i` (`getElem_scatter`), and a place that is nobody's destination
keeps what it held (`getElem_scatter_of_forall_ne`).
-/

namespace RnsEngine

universe u

variable {α : Type u} {m n : Nat}

/-- Writes value after value at its destination. -/
def scatter (dest : Fin m → Fin n) (value : Fin m → α) (target : Vector α n) : Vector α n :=
  Fin.foldl m (fun v i => v.set (dest i).val (value i) (dest i).isLt) target

/-- The last value is written after all others. -/
theorem scatter_succ (dest : Fin (m + 1) → Fin n) (value : Fin (m + 1) → α)
    (target : Vector α n) :
    scatter dest value target =
      (scatter (fun i => dest i.castSucc) (fun i => value i.castSucc) target).set
        (dest (Fin.last m)).val (value (Fin.last m)) (dest (Fin.last m)).isLt := by
  rw [scatter, Fin.foldl_succ_last]
  rfl

/-- A place that is no destination is left alone. -/
theorem getElem_scatter_of_forall_ne {dest : Fin m → Fin n} (value : Fin m → α)
    (target : Vector α n) {k : Fin n} (h : ∀ i, dest i ≠ k) :
    (scatter dest value target)[k] = target[k] := by
  induction m with
  | zero => rfl
  | succ m ih =>
    rw [scatter_succ]
    have hne : (dest (Fin.last m)).val ≠ k.val := fun heq => h _ (Fin.ext heq)
    have hget := ih (fun i => value i.castSucc) (fun i => h i.castSucc)
    simpa [Vector.getElem_set_ne _ _ hne] using hget

/-- With distinct destinations, every value is found at its own. -/
theorem getElem_scatter {dest : Fin m → Fin n} (hdest : ∀ i j, dest i = dest j → i = j)
    (value : Fin m → α) (target : Vector α n) (i : Fin m) :
    (scatter dest value target)[dest i] = value i := by
  induction m with
  | zero => exact i.elim0
  | succ m ih =>
    rw [scatter_succ]
    rcases Nat.lt_or_ge i.val m with hi | hi
    · have hcast : i = (⟨i.val, hi⟩ : Fin m).castSucc := rfl
      have hne : (dest (Fin.last m)).val ≠ (dest i).val := fun heq => by
        have hlast := hdest _ _ (Fin.ext heq)
        rw [← hlast, Fin.val_last] at hi
        exact Nat.lt_irrefl _ hi
      have hinj : ∀ a b : Fin m, dest a.castSucc = dest b.castSucc → a = b := fun a b hab =>
        Fin.castSucc_inj.1 (hdest _ _ hab)
      have hget := ih hinj (fun a => value a.castSucc) ⟨i.val, hi⟩
      simpa [Vector.getElem_set_ne _ _ hne] using hget
    · have hlast : i = Fin.last m := Fin.ext (by rw [Fin.val_last]; omega)
      subst hlast
      simp

end RnsEngine
