import Mathlib.Algebra.BigOperators.Fin
import Mathlib.Algebra.Order.BigOperators.Ring.Finset
import Mathlib.RingTheory.Coprime.Lemmas
import RnsEngine.Conversion.Basic
import RnsEngine.Proofs.Conversion.ModInverse
import RnsEngine.Proofs.Refusal
import RnsEngine.Ring.Residues

/-!
# Numbers from their residues

The cofactor of a source modulus is divisible by every other source modulus, and a conversion keeps
its inverse modulo the one that it leaves out (`Invertible`). A sum of cofactors, each with the
residue times the inverse, is therefore congruent to the number modulo every source modulus, and
modulo their product since the moduli have no common factors. What it exceeds the number by is a
multiple of the product, less often than there are moduli (`Invertible.exists_sum_eq`).
-/

namespace RnsEngine

namespace Channel

variable (c : Channel) (x : ℕ)

/-- The reduced word of a number. -/
def word : UInt64 := UInt64.ofNat (x % c.modulus.toNat)

/-- Nothing is lost when a remainder becomes a word. -/
theorem toNat_word : (c.word x).toNat = x % c.modulus.toNat :=
  UInt64.toNat_ofNat_of_lt' (Nat.lt_trans (Nat.mod_lt x c.modulus_pos) c.modulus.toNat_lt)

/-- The word is reduced. -/
theorem word_lt : c.word x < c.modulus := c.lt_modulus_of_toNat_eq_mod (c.toNat_word x)

/-- The word stands for the number. -/
@[simp] theorem residue_word : c.residue (c.word x) = x :=
  c.residue_of_toNat_eq_mod (c.toNat_word x)

end Channel

namespace BaseConversion

variable (b : BaseConversion)

/-- The source channel of a column. -/
def channel : Fin b.source.size → Channel
  | ⟨i, hi⟩ => b.source[i]

/-- The cofactor of the modulus of a column. -/
def cofactorAt (i : Fin b.source.size) : ℕ := cofactor b.source (b.channel i)

/-! ### The product of the moduli -/

/-- There is a source modulus. -/
theorem inputs_pos : 0 < b.inputs := b.source_pos

/-- The product of channels is the one of the numbers that their moduli are. -/
theorem product_eq_prod_map (channels : Array Channel) :
    product channels = (channels.toList.map fun c => c.modulus.toNat).prod := by
  rw [product, ← Array.foldl_toList, List.prod_eq_foldl, List.foldl_map]

/-- The product of the source moduli, column by column. -/
theorem modulus_eq_prod : b.modulus = ∏ i, (b.channel i).modulus.toNat := by
  rw [modulus, product_eq_prod_map, ← Fin.prod_univ_fun_getElem]
  rfl

/-- A modulus times its cofactor is the product. -/
theorem mul_cofactorAt (i : Fin b.source.size) :
    (b.channel i).modulus.toNat * b.cofactorAt i = b.modulus := by
  refine Nat.mul_div_cancel' ?_
  change _ ∣ b.modulus
  rw [modulus_eq_prod]
  exact Finset.dvd_prod_of_mem _ (Finset.mem_univ i)

/-- A cofactor is the product of the other moduli. -/
theorem cofactorAt_eq_prod (i : Fin b.source.size) :
    b.cofactorAt i = ∏ k ∈ Finset.univ.erase i, (b.channel k).modulus.toNat := by
  have h := b.mul_cofactorAt i
  rw [modulus_eq_prod, ← Finset.mul_prod_erase _ _ (Finset.mem_univ i)] at h
  exact Nat.eq_of_mul_eq_mul_left (b.channel i).modulus_pos h

/-- A modulus divides every cofactor but its own. -/
theorem dvd_cofactorAt {i k : Fin b.source.size} (h : i ≠ k) :
    (b.channel i).modulus.toNat ∣ b.cofactorAt k := by
  rw [cofactorAt_eq_prod]
  exact Finset.dvd_prod_of_mem (fun k => (b.channel k).modulus.toNat)
    (Finset.mem_erase.2 ⟨h, Finset.mem_univ i⟩)

/-- The product is positive. -/
theorem modulus_pos : 0 < b.modulus := by
  rw [modulus_eq_prod]
  exact Finset.prod_pos fun i _ => (b.channel i).modulus_pos

/-! ### Sums of cofactors -/

/-- The inverses of a conversion are reduced and are those of the cofactors. -/
structure Invertible : Prop where
  inverse_lt : ∀ i, b.inverses.get i < (b.channel i).modulus
  inverse_mul : ∀ i, (b.channel i).residue (b.inverses.get i) * b.cofactorAt i = 1

/-- What a number puts into a column: its residue times the inverse of the cofactor. -/
def factor (x : ℕ) (i : Fin b.source.size) : UInt64 :=
  (b.channel i).mul ((b.channel i).word x) (b.inverses.get i)

namespace Invertible

variable {b} (h : b.Invertible)
include h

/-- Moduli with inverses have no common factors: what divides two of them divides the cofactor of
either. -/
theorem coprime {i k : Fin b.source.size} (hik : i ≠ k) :
    Nat.Coprime (b.channel i).modulus.toNat (b.channel k).modulus.toNat := by
  have hunit : IsUnit (b.cofactorAt k : ZMod (b.channel k).modulus.toNat) :=
    .of_mul_eq_one_right _ (h.inverse_mul k)
  exact ((ZMod.isUnit_iff_coprime _ _).1 hunit).coprime_dvd_left (b.dvd_cofactorAt hik)

/-- A factor is reduced. -/
theorem factor_lt (x : ℕ) (i : Fin b.source.size) : b.factor x i < (b.channel i).modulus :=
  (b.channel i).mul_lt ((b.channel i).word_lt x) (h.inverse_lt i)

/-- A factor times the cofactor of its column stands for the number. -/
theorem residue_factor_mul (x : ℕ) (i : Fin b.source.size) :
    (b.channel i).residue (b.factor x i) * b.cofactorAt i = x := by
  rw [factor, (b.channel i).residue_mul ((b.channel i).word_lt x) (h.inverse_lt i),
    Channel.residue_word, mul_assoc, h.inverse_mul, mul_one]

/-- The sum of the cofactors with the factors of a number is congruent to it. -/
theorem sum_modEq (x : ℕ) :
    ∑ i, (b.factor x i).toNat * b.cofactorAt i ≡ x [MOD b.modulus] := by
  -- modulo one source modulus only the cofactor that leaves it out remains
  have hchannel : ∀ i, ∑ k, (b.factor x k).toNat * b.cofactorAt k ≡ x
      [MOD (b.channel i).modulus.toNat] := by
    intro i
    rw [← ZMod.natCast_eq_natCast_iff, Nat.cast_sum,
      Finset.sum_eq_single i (fun k _ hk => ?_) (fun hi => absurd (Finset.mem_univ i) hi)]
    · rw [Nat.cast_mul]
      exact h.residue_factor_mul x i
    · rw [ZMod.natCast_eq_zero_iff]
      exact Dvd.dvd.mul_left (b.dvd_cofactorAt hk.symm) _
  simp only [Nat.modEq_iff_dvd] at hchannel ⊢
  rw [modulus_eq_prod, Nat.cast_prod]
  exact Fintype.prod_dvd_of_coprime
    (fun i k hik => Nat.isCoprime_iff_coprime.2 (h.coprime hik)) hchannel

/-- The sum is less than so many products as there are moduli. -/
theorem sum_lt (x : ℕ) :
    ∑ i, (b.factor x i).toNat * b.cofactorAt i < b.inputs * b.modulus := by
  have hterm : ∀ i, (b.factor x i).toNat * b.cofactorAt i < b.modulus := by
    intro i
    have hpos : 0 < b.cofactorAt i :=
      Nat.pos_of_mul_pos_left (b.mul_cofactorAt i ▸ b.modulus_pos)
    rw [← b.mul_cofactorAt i]
    exact Nat.mul_lt_mul_of_pos_right (UInt64.lt_iff_toNat_lt.1 (h.factor_lt x i)) hpos
  calc ∑ i, (b.factor x i).toNat * b.cofactorAt i
      < ∑ _i : Fin b.source.size, b.modulus :=
        Finset.sum_lt_sum_of_nonempty ⟨⟨0, b.inputs_pos⟩, Finset.mem_univ _⟩ fun i _ => hterm i
    _ = b.inputs * b.modulus := by
        rw [Finset.sum_const, Finset.card_univ, Fintype.card_fin, smul_eq_mul, inputs]

/-- The sum exceeds a number below the product by a multiple of the product, less often than there
are moduli. -/
theorem exists_sum_eq {x : ℕ} (hx : x < b.modulus) :
    ∃ α < b.inputs, ∑ i, (b.factor x i).toNat * b.cofactorAt i = x + α * b.modulus := by
  have hmod : (∑ i, (b.factor x i).toNat * b.cofactorAt i) % b.modulus = x :=
    Eq.trans (h.sum_modEq x) (Nat.mod_eq_of_lt hx)
  refine ⟨(∑ i, (b.factor x i).toNat * b.cofactorAt i) / b.modulus, ?_, ?_⟩
  · exact (Nat.div_lt_iff_lt_mul b.modulus_pos).2 (h.sum_lt x)
  · exact (Nat.mod_add_div' _ b.modulus).symm.trans (congrArg (· + _) hmod)

end Invertible

/-! ### The construction -/

/-- What is known of a conversion that was built for given moduli. -/
structure Converts (source target : List UInt64) : Prop where
  source_eq : b.source.toList.map (·.modulus) = source
  target_eq : b.target.toList.map (·.modulus) = target
  outputs_pos : 0 < b.outputs
  inputs_le : b.inputs ≤ 16
  invertible : b.Invertible

variable {b} {source target : List UInt64}

namespace Converts

variable (h : b.Converts source target)
include h

/-- There are as many columns as source moduli. -/
theorem length_source : source.length = b.inputs := by
  rw [← h.source_eq, List.length_map]
  rfl

/-- There are as many columns of the result as target moduli. -/
theorem length_target : target.length = b.outputs := by
  rw [← h.target_eq, List.length_map]
  rfl

/-- The source modulus of a column. -/
theorem getElem?_source (i : Fin b.source.size) : source[i.val]? = some (b.channel i).modulus := by
  rw [← h.source_eq, List.getElem?_map, Array.getElem?_toList, Array.getElem?_eq_getElem i.isLt]
  rfl

/-- The target modulus of a column of the result. -/
theorem getElem?_target {j : ℕ} (hj : j < b.outputs) :
    ∃ p : Channel, target[j]? = some p.modulus ∧ b.targetModuli.getD j 0 = p.modulus := by
  refine ⟨b.target[j], ?_, ?_⟩
  · rw [← h.target_eq, List.getElem?_map, Array.getElem?_toList, Array.getElem?_eq_getElem hj]
    rfl
  · rw [targetModuli, Array.getD_eq_getD_getElem?, Array.getElem?_map,
      Array.getElem?_eq_getElem hj]
    rfl

/-- The product of the source moduli. -/
theorem modulus_eq : b.modulus = (source.map (·.toNat)).prod := by
  rw [modulus, product_eq_prod_map, ← h.source_eq, List.map_map]
  rfl

end Converts

/-- The inverse of a cofactor that is found is reduced, and is its inverse. -/
theorem residue_mul_of_cofactorInverse {channels : Array Channel} {c : Channel} {x : UInt64}
    (h : cofactorInverse channels c = .ok x) :
    x < c.modulus ∧ c.residue x * cofactor channels c = 1 := by
  simp only [cofactorInverse] at h
  split at h
  · next y hy =>
    obtain ⟨hlt, hmul⟩ := modInverse?_spec c.modulus_pos hy
    obtain rfl := Except.ok.inj h
    have hword : (UInt64.ofNat y).toNat = y :=
      UInt64.toNat_ofNat_of_lt' (Nat.lt_trans hlt c.modulus.toNat_lt)
    rw [ZMod.natCast_mod] at hmul
    rw [Channel.residue, hword]
    exact ⟨UInt64.lt_iff_toNat_lt.2 (hword.symm ▸ hlt), hmul⟩
  · cases h

/-- A conversion that is built is one between the moduli that were given. -/
theorem converts_of_ofModuli (h : ofModuli source target = .ok b) : b.Converts source target := by
  unfold ofModuli at h
  simp only [bind_eq_ok_iff] at h
  obtain ⟨channels, hsource, targets, htarget, s, hshape, h⟩ := h
  have horigin : ∀ q c, Channel.ofModulus q = .ok c → c.modulus = q ∧ True := fun q c hc =>
    ⟨Channel.modulus_eq_of_ofModulus hc, trivial⟩
  obtain ⟨-, hinputs, houtputs⟩ := Shape.ofDims_eq_ok_iff.1 hshape
  rw [dif_pos hinputs] at h
  obtain ⟨inverses, hinverses, h⟩ := bind_eq_ok_iff.1 h
  obtain rfl := Except.ok.inj h
  have hinverse := fun i => residue_mul_of_cofactorInverse (get_of_mapM_eq_ok hinverses i)
  exact
    { source_eq := (mapM_eq_ok_spec horigin hsource).1
      target_eq := (mapM_eq_ok_spec horigin htarget).1
      outputs_pos := Nat.lt_of_lt_of_eq s.outputs_pos houtputs
      inputs_le := Nat.le_trans (Nat.le_of_eq hinputs.symm) s.inputs_le
      invertible := ⟨fun i => (hinverse i).1, fun i => (hinverse i).2⟩ }

end BaseConversion

end RnsEngine
