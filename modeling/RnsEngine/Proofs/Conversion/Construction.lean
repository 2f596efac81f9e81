import Mathlib.Data.Nat.GCD.BigOperators
import RnsEngine.Proofs.Conversion.Congruence
import RnsEngine.Proofs.Systolic.Checks

/-!
# The bases that can be converted

No two moduli are ever compared: a conversion is built when every cofactor has an inverse modulo the
modulus that it leaves out. A cofactor is the product of the other moduli, so that this fails for a
modulus exactly when it has a common factor with one of the others (`coprime_cofactor_iff`), and the
first such modulus is what the construction is refused for.

`BaseConversion.ofModuli_outcome` says this for all moduli that have a channel, together with what a
conversion consists of and that its words are never too large for the grid.
-/

namespace RnsEngine

/-! ### Common factors -/

/-- The modulus in a place has a common factor with the one in some other place. -/
def SharesFactor (moduli : List UInt64) (i : ℕ) : Prop :=
  ∃ (k : ℕ) (hk : k < moduli.length) (hi : i < moduli.length),
    k ≠ i ∧ ¬ Nat.Coprime moduli[k].toNat moduli[i].toNat

/-- Moduli are pairwise coprime when none of them has a common factor with another. -/
theorem pairwise_coprime_iff {moduli : List UInt64} :
    moduli.Pairwise (fun p q => Nat.Coprime p.toNat q.toNat) ↔ ∀ i, ¬ SharesFactor moduli i := by
  rw [List.pairwise_iff_getElem]
  constructor
  · rintro h i ⟨k, hk, hi, hne, hnot⟩
    refine hnot ?_
    rcases Nat.lt_or_gt_of_ne hne with hlt | hlt
    · exact h k i hk hi hlt
    · exact (h i k hi hk hlt).symm
  · intro h i k hi hk hlt
    by_contra hnot
    exact h k ⟨i, hi, hk, Nat.ne_of_lt hlt, hnot⟩

/-- The product of the other moduli is coprime to a modulus unless one of them has a common factor
with it. -/
theorem coprime_cofactor_iff {moduli : List UInt64} {i : ℕ} (hi : i < moduli.length)
    (hpos : 0 < moduli[i].toNat) :
    Nat.Coprime ((moduli.map (·.toNat)).prod / moduli[i].toNat) moduli[i].toNat ↔
      ¬ SharesFactor moduli i := by
  have hmul : moduli[i].toNat * ((moduli.map (·.toNat)).eraseIdx i).prod =
      (moduli.map (·.toNat)).prod := by
    have hi' : i < (moduli.map (·.toNat)).length := by rwa [List.length_map]
    rw [← List.CommMonoid.mul_prod_eraseIdx hi', List.getElem_map]
  rw [← hmul, Nat.mul_div_cancel_left _ hpos, Nat.coprime_list_prod_left_iff]
  simp only [List.mem_eraseIdx_iff_getElem, List.getElem_map, List.length_map]
  constructor
  · rintro h ⟨k, hk, _, hne, hnot⟩
    exact hnot (h _ ⟨k, hk, hne, rfl⟩)
  · rintro h _ ⟨k, hk, hne, rfl⟩
    by_contra hnot
    exact h ⟨k, hk, hi, hne, hnot⟩

/-- If any modulus has a common factor with another, there is a first one. -/
theorem exists_first_sharesFactor {moduli : List UInt64} (h : ∃ i, SharesFactor moduli i) :
    ∃ i < moduli.length, IsLeast {k | SharesFactor moduli k} i := by
  classical
  obtain ⟨-, -, hi, -⟩ := Nat.find_spec h
  exact ⟨Nat.find h, hi, Nat.find_spec h, fun k hk => Nat.find_min' h hk⟩

namespace Channel

/-- A modulus within the bounds has a channel. -/
theorem exists_ofModulus {q : UInt64} (h : 2 ≤ q ∧ q < modulusBound) :
    ∃ c, ofModulus q = .ok c :=
  ⟨_, dif_pos h⟩

/-- Moduli within the bounds have their channels. -/
theorem exists_mapM_ofModulus {moduli : List UInt64}
    (h : ∀ q ∈ moduli, 2 ≤ q ∧ q < modulusBound) :
    ∃ channels, moduli.mapM ofModulus = .ok channels ∧ channels.map (·.modulus) = moduli := by
  obtain ⟨channels, hchannels⟩ := exists_mapM_eq_ok fun q hq => exists_ofModulus (h q hq)
  have horigin : ∀ q c, ofModulus q = .ok c → c.modulus = q ∧ True := fun q c hc =>
    ⟨modulus_eq_of_ofModulus hc, trivial⟩
  exact ⟨channels, hchannels, (mapM_eq_ok_spec horigin hchannels).1⟩

end Channel

namespace BaseConversion

variable {b : BaseConversion} {source target : List UInt64}

/-! ### The inverses -/

/-- A cofactor, from the moduli. -/
theorem cofactor_eq (channels : List Channel) (c : Channel) :
    cofactor channels.toArray c =
      ((channels.map (·.modulus)).map (·.toNat)).prod / c.modulus.toNat := by
  rw [cofactor, product_eq_prod_map, List.map_map]
  rfl

/-- A cofactor that is coprime to its modulus has an inverse. -/
theorem exists_cofactorInverse {channels : Array Channel} {c : Channel}
    (h : Nat.Coprime (cofactor channels c) c.modulus.toNat) :
    ∃ x, cofactorInverse channels c = .ok x := by
  rw [cofactorInverse]
  cases hinverse : modInverse? (cofactor channels c % c.modulus.toNat) c.modulus.toNat with
  | some y => exact ⟨_, rfl⟩
  | none =>
    refine absurd ?_ ((modInverse?_eq_none_iff c.modulus_pos).1 hinverse)
    exact (Nat.ModEq.gcd_eq (Nat.mod_modEq _ _)).trans h

/-- A cofactor with a common factor is refused, by its residue. -/
theorem cofactorInverse_eq_error {channels : Array Channel} {c : Channel}
    (h : ¬ Nat.Coprime (cofactor channels c) c.modulus.toNat) :
    cofactorInverse channels c =
      .error (.notInvertible (c.word (cofactor channels c)) c.modulus) := by
  have hnone : modInverse? (cofactor channels c % c.modulus.toNat) c.modulus.toNat = none :=
    (modInverse?_eq_none_iff c.modulus_pos).2 fun hcoprime =>
      h ((Nat.ModEq.gcd_eq (Nat.mod_modEq _ _)).symm.trans hcoprime)
  rw [cofactorInverse, hnone]
  rfl

/-- A cofactor is coprime to its modulus unless another modulus has a common factor with it. -/
theorem coprime_cofactor_channel_iff {channels : List Channel} {i : ℕ} (hi : i < channels.length) :
    Nat.Coprime (cofactor channels.toArray channels[i]) channels[i].modulus.toNat ↔
      ¬ SharesFactor (channels.map (·.modulus)) i := by
  have hi' : i < (channels.map (·.modulus)).length := by rwa [List.length_map]
  have hmodulus : (channels.map (·.modulus))[i] = channels[i].modulus := List.getElem_map _
  have h := coprime_cofactor_iff hi' (hmodulus ▸ channels[i].modulus_pos)
  rwa [hmodulus, ← cofactor_eq] at h

/-! ### The construction -/

/-- Bases that a conversion is asked for: both have moduli, all of them with a channel, and there
are not too many in the source. -/
structure Bases (source target : List UInt64) : Prop where
  source_ne_nil : source ≠ []
  target_ne_nil : target ≠ []
  length_le : source.length ≤ 16
  source_bounds : ∀ q ∈ source, 2 ≤ q ∧ q < modulusBound
  target_bounds : ∀ p ∈ target, 2 ≤ p ∧ p < modulusBound

namespace Bases

variable (h : Bases source target)
include h

/-- A source modulus is positive. -/
theorem source_pos {q : UInt64} (hq : q ∈ source) : 0 < q.toNat :=
  Nat.lt_of_lt_of_le Nat.two_pos (UInt64.le_iff_toNat_le.1 (h.source_bounds q hq).1)

/-- The construction is that of the inverses. -/
theorem exists_ofModuli_eq :
    ∃ (channels targets : List Channel) (hpos : 0 < channels.toArray.size),
      channels.map (·.modulus) = source ∧
      ofModuli source target =
        channels.toArray.toVector.mapM (cofactorInverse channels.toArray) >>= fun inverses =>
          .ok ⟨channels.toArray, targets.toArray, hpos, inverses⟩ := by
  obtain ⟨channels, hchannels, hsource⟩ := Channel.exists_mapM_ofModulus h.source_bounds
  obtain ⟨targets, htargets, htarget⟩ := Channel.exists_mapM_ofModulus h.target_bounds
  have hinputs : channels.toArray.size = source.length := by
    rw [← hsource, List.length_map, List.size_toArray]
  have houtputs : targets.toArray.size = target.length := by
    rw [← htarget, List.length_map, List.size_toArray]
  have hinputsPos : 0 < channels.toArray.size :=
    hinputs ▸ List.length_pos_of_ne_nil h.source_ne_nil
  let s : Shape :=
    { rows := 1
      inputs := channels.toArray.size
      outputs := targets.toArray.size
      rows_pos := Nat.one_pos
      inputs_pos := hinputsPos
      outputs_pos := houtputs ▸ List.length_pos_of_ne_nil h.target_ne_nil
      inputs_le := hinputs ▸ h.length_le }
  have hshape : Shape.ofDims 1 channels.toArray.size targets.toArray.size = .ok s :=
    Shape.ofDims_eq_ok_iff.2 ⟨rfl, rfl, rfl⟩
  refine ⟨channels, targets, hinputsPos, hsource, ?_⟩
  simp only [ofModuli, hchannels, htargets, hshape, ok_bind]
  rw [dif_pos rfl]
  rfl

/-- Without common factors a conversion is built. -/
theorem exists_ofModuli (hnone : ∀ i, ¬ SharesFactor source i) :
    ∃ b, ofModuli source target = .ok b := by
  obtain ⟨channels, targets, hpos, rfl, hbuild⟩ := h.exists_ofModuli_eq
  have hstep : ∀ c ∈ channels, ∃ x, cofactorInverse channels.toArray c = .ok x := by
    intro c hc
    obtain ⟨i, hi, rfl⟩ := List.getElem_of_mem hc
    exact exists_cofactorInverse ((coprime_cofactor_channel_iff hi).2 (hnone i))
  obtain ⟨inverses, hinverses⟩ : ∃ inverses,
      channels.toArray.toVector.mapM (cofactorInverse channels.toArray) = .ok inverses :=
    exists_vector_mapM_eq_ok hstep
  exact ⟨_, by rw [hbuild, hinverses, ok_bind]⟩

/-- The first modulus with a common factor is the one that is refused, with the residue of its
cofactor. -/
theorem ofModuli_eq_error {i : ℕ} (hfirst : IsLeast {k | SharesFactor source k} i)
    (hi : i < source.length) :
    ofModuli source target =
      .error (.notInvertible
        (.ofNat ((source.map (·.toNat)).prod / source[i].toNat % source[i].toNat)) source[i]) := by
  obtain ⟨channels, targets, hpos, rfl, hbuild⟩ := h.exists_ofModuli_eq
  have hi' : i < channels.length := by rwa [List.length_map] at hi
  have hrefused := cofactorInverse_eq_error fun hcoprime =>
    (coprime_cofactor_channel_iff hi').1 hcoprime hfirst.1
  have htraverse : channels.mapM (cofactorInverse channels.toArray) = .error _ :=
    mapM_eq_error hi' hrefused fun k hk =>
      exists_cofactorInverse ((coprime_cofactor_channel_iff _).2 fun hshares =>
        absurd (hfirst.2 hshares) (Nat.not_le.2 hk))
  rw [hbuild, vector_mapM_eq_error htraverse, error_bind, cofactor_eq, Channel.word]
  simp only [List.getElem_map]

/-- A conversion is built exactly between bases whose source moduli are pairwise coprime. -/
theorem exists_ofModuli_iff :
    (∃ b, ofModuli source target = .ok b) ↔
      source.Pairwise fun p q => Nat.Coprime p.toNat q.toNat := by
  rw [pairwise_coprime_iff]
  refine ⟨fun ⟨b, hb⟩ i hshares => ?_, h.exists_ofModuli⟩
  obtain ⟨i, hi, hfirst⟩ := exists_first_sharesFactor ⟨i, hshares⟩
  rw [h.ofModuli_eq_error hfirst hi] at hb
  cases hb

end Bases

/-! ### What a conversion feeds to the grid -/

/-- The inverse of a cofactor, as a number. -/
theorem Invertible.cofactorAt_mul_mod (h : b.Invertible) (i : Fin b.source.size) :
    b.cofactorAt i * (b.inverses.get i).toNat % (b.channel i).modulus.toNat = 1 := by
  have hmul := h.inverse_mul i
  rw [Channel.residue, ← Nat.cast_mul, ← Nat.cast_one, ZMod.natCast_eq_natCast_iff,
    Nat.mul_comm] at hmul
  exact Eq.trans hmul (Nat.mod_eq_of_lt (b.channel i).two_le_toNat)

/-- A weight is below the bound of the grid. -/
theorem weight_lt_bound {w : UInt64} (h : w ∈ b.weights) : w < modulusBound := by
  simp only [weights, Array.mem_flatMap, Array.mem_map] at h
  obtain ⟨c, -, p, -, rfl⟩ := h
  exact UInt64.lt_trans (p.word_lt _) p.lt_bound

/-- A scaled word is reduced in its column. -/
theorem Invertible.scaled_lt (h : b.Invertible) {xs scaled : Array UInt64}
    (hscaled : b.prescale xs = .ok scaled) {k : ℕ} {y : UInt64} (hy : scaled[k]? = some y) :
    y < (b.channel (b.columnOf k)).modulus := by
  obtain ⟨⟨-, hreduced⟩, rfl⟩ := prescale_eq_ok_iff.1 hscaled
  rw [Array.getElem?_mapIdx, Option.map_eq_some_iff] at hy
  obtain ⟨x, hx, rfl⟩ := hy
  exact (b.channel _).mul_lt (hreduced k x hx) (h.inverse_lt _)

/-- A scaled word is below the bound of the grid. -/
theorem Invertible.scaled_lt_bound (h : b.Invertible) {xs scaled : Array UInt64}
    (hscaled : b.prescale xs = .ok scaled) {y : UInt64} (hy : y ∈ scaled) : y < modulusBound := by
  obtain ⟨k, hk⟩ := Array.mem_iff_getElem?.1 hy
  exact UInt64.lt_trans (h.scaled_lt hscaled hk) (b.channel _).lt_bound

/-- What scaling refuses for its range is a word that is no residue modulo its column. -/
theorem prescale_eq_error {xs : Array UInt64} {role : Role} {x bound : UInt64}
    (h : b.prescale xs = .error (.operandOutOfRange role x bound)) :
    role = .conversionResidues ∧
      ∃ k, xs[k]? = some x ∧ bound = (b.channel (b.columnOf k)).modulus ∧ bound ≤ x := by
  rw [prescale] at h
  split at h
  · cases h
  · split at h
    · next fault hfault =>
      obtain rfl := Except.error.inj h
      obtain ⟨⟨y, k⟩, hmem, hy⟩ := List.exists_of_findSome?_eq_some hfault
      simp only [unreduced?] at hy
      split at hy
      · next hle =>
        injection hy with hy
        injection hy with hrole hword hbound
        subst hrole hword hbound
        rw [List.mem_zipIdx_iff_getElem?, Array.getElem?_toList] at hmem
        exact ⟨rfl, k, hmem, rfl, hle⟩
      · cases hy
    · cases h

end BaseConversion

/-- A product of words below the bound is not refused for their range. -/
theorem Grid.multiply_ne_operandOutOfRange {s : Shape} {input weights : Array UInt64}
    (hinput : ∀ x ∈ input, x < modulusBound) (hweights : ∀ x ∈ weights, x < modulusBound)
    (moduli output : Array UInt64) (role : Role) (x bound : UInt64) :
    multiply s input weights moduli output ≠ .error (.operandOutOfRange role x bound) := by
  have hnone : ∀ (role : Role) {words : Array UInt64}, (∀ x ∈ words, x < modulusBound) →
      ∀ count, (List.range count).findSome? (checkWord role words) = none := by
    intro role words hwords count
    refine findSome?_reasonUnless_eq_none_iff.2 fun k _ => ?_
    rw [Array.getD_eq_getD_getElem?]
    cases hk : words[k]? with
    | none => exact (by decide : 0 < modulusBound)
    | some x => exact hwords x (Array.mem_of_getElem? hk)
  have hsize : ∀ (role' : Role) (expected : ℕ) (words : Array UInt64),
      checkWords role' expected words ≠ some (.operandOutOfRange role x bound) := by
    intro role' expected words hfound
    rw [checkWords, reasonUnless] at hfound
    split at hfound <;> cases hfound
  have hmodulus : (List.range s.outputs).findSome? (checkModulus moduli) ≠
      some (.operandOutOfRange role x bound) := by
    intro hfound
    obtain ⟨j, -, hj⟩ := List.exists_of_findSome?_eq_some hfound
    rw [checkModulus, reasonUnless] at hj
    split at hj <;> cases hj
  intro hrefused
  rw [multiply_eq_resultUnless, resultUnless_eq_error_iff, Shape.checks, Shape.installChecks,
    Shape.runChecks, hnone _ hinput, hnone _ hweights] at hrefused
  obtain ⟨check, hcheck, hfault⟩ := List.exists_of_findSome?_eq_some hrefused
  rw [id] at hfault
  simp only [hfault, List.cons_append, List.nil_append, List.mem_cons, List.not_mem_nil, or_false,
    reduceCtorEq, false_or] at hcheck
  rcases hcheck with h | h | h | h | h
  · exact hsize _ _ _ h.symm
  · exact hsize _ _ _ h.symm
  · exact hmodulus h.symm
  · exact hsize _ _ _ h.symm
  · exact hsize _ _ _ h.symm

namespace BaseConversion

variable {b : BaseConversion} {source target : List UInt64}

/-- What a conversion refuses for its range is refused when it is scaled, not by the grid. -/
theorem Invertible.prescale_eq_error_of_convert (h : b.Invertible) {xs output : Array UInt64}
    {role : Role} {x bound : UInt64}
    (hrefused : b.convert xs output = .error (.operandOutOfRange role x bound)) :
    b.prescale xs = .error (.operandOutOfRange role x bound) := by
  rw [convert] at hrefused
  cases hscaled : b.prescale xs with
  | error fault =>
    rw [hscaled, error_bind] at hrefused
    exact congrArg Except.error (Except.error.inj hrefused)
  | ok scaled =>
    rw [hscaled, ok_bind] at hrefused
    cases hshape : Shape.ofDims (scaled.size / b.inputs) b.inputs b.outputs with
    | error fault =>
      rw [hshape, error_bind, Except.error.injEq] at hrefused
      rw [hrefused, Shape.ofDims] at hshape
      split at hshape
      · split at hshape <;> cases hshape
      · cases hshape
    | ok s =>
      rw [hshape, ok_bind] at hrefused
      exact absurd hrefused (Grid.multiply_ne_operandOutOfRange
        (fun _ hy => h.scaled_lt_bound hscaled hy) (fun _ hw => weight_lt_bound hw) _ _ _ _ _)

namespace Converts

variable (h : b.Converts source target)
include h

/-- The cofactor of a column, from the source moduli. -/
theorem cofactorAt_eq {i : ℕ} (hi : i < source.length) {k : Fin b.source.size} (hk : k.val = i) :
    (b.channel k).modulus = source[i] ∧
      b.cofactorAt k = (source.map (·.toNat)).prod / source[i].toNat := by
  have hmodulus : (b.channel k).modulus = source[i] := by
    have hget := h.getElem?_source k
    rw [hk, List.getElem?_eq_getElem hi] at hget
    exact (Option.some.inj hget).symm
  refine ⟨hmodulus, ?_⟩
  rw [← hmodulus, ← h.modulus_eq]
  rfl

/-- The inverses are reduced, and invert the cofactors. -/
theorem getElem?_inverses {i : ℕ} (hi : i < source.length) :
    ∃ x, b.inverses[i]? = some x ∧ x < source[i] ∧
      (source.map (·.toNat)).prod / source[i].toNat * x.toNat % source[i].toNat = 1 := by
  have hi' : i < b.source.size := Nat.lt_of_lt_of_eq hi h.length_source
  obtain ⟨hmodulus, hcofactor⟩ := h.cofactorAt_eq hi (k := ⟨i, hi'⟩) rfl
  refine ⟨b.inverses.get ⟨i, hi'⟩, Vector.getElem?_eq_getElem hi', ?_, ?_⟩
  · rw [← hmodulus]
    exact h.invertible.inverse_lt _
  · rw [← hcofactor, ← hmodulus]
    exact h.invertible.cofactorAt_mul_mod _

/-- The weights are the cofactors modulo the target. -/
theorem getElem?_weights {i : ℕ} (hi : i < source.length) {j : ℕ} (hj : j < target.length) :
    ∃ w, b.weights[i * target.length + j]? = some w ∧
      w.toNat = (source.map (·.toNat)).prod / source[i].toNat % target[j].toNat := by
  have hi' : i < b.source.size := Nat.lt_of_lt_of_eq hi h.length_source
  obtain ⟨-, hcofactor⟩ := h.cofactorAt_eq hi (k := ⟨i, hi'⟩) rfl
  obtain ⟨p, hp, -⟩ := h.getElem?_target (Nat.lt_of_lt_of_eq hj h.length_target)
  have htarget : target[j] = p.modulus := by
    rwa [List.getElem?_eq_getElem hj, Option.some.injEq] at hp
  refine ⟨p.word (b.cofactorAt ⟨i, hi'⟩), ?_, ?_⟩
  · rw [h.weights_eq, getElem?_residueMatrix (getElem?_cofactors ⟨i, hi'⟩) hp]
    rfl
  · rw [p.toNat_word, hcofactor, htarget]

/-- What a conversion refuses for its range is a word that is no residue modulo its column. -/
theorem convert_eq_error {xs output : Array UInt64} {role : Role} {x bound : UInt64}
    (hrefused : b.convert xs output = .error (.operandOutOfRange role x bound)) :
    role = .conversionResidues ∧
      ∃ k, xs[k]? = some x ∧ source[k % source.length]? = some bound ∧ bound ≤ x := by
  obtain ⟨hrole, k, hx, hbound, hle⟩ :=
    prescale_eq_error (h.invertible.prescale_eq_error_of_convert hrefused)
  refine ⟨hrole, k, hx, ?_, hle⟩
  rw [h.length_source, hbound]
  exact h.getElem?_source (b.columnOf k)

end Converts

/-- **What a conversion is built from.** Between a source of one to sixteen moduli and a target of
at least one, all within the bounds of a channel, a conversion is built exactly when the source
moduli are pairwise coprime. Otherwise it is refused for the first of them that has a common factor
with another, by the residue of its cofactor. One that is built has the reduced inverses of the
cofactors, and the cofactors modulo the target as its weights. It feeds no word to the grid that is
too large for it: what is refused for its range was no residue in the first place. -/
theorem ofModuli_outcome (h : Bases source target) :
    let modulus := (source.map (·.toNat)).prod
    let outcome := ofModuli source target
    ((∃ b, outcome = .ok b) ↔ source.Pairwise fun p q => Nat.Coprime p.toNat q.toNat) ∧
      ((¬ source.Pairwise fun p q => Nat.Coprime p.toNat q.toNat) →
        ∃ (i : ℕ) (hi : i < source.length) (value : UInt64),
          IsLeast {k | SharesFactor source k} i ∧
            value.toNat = modulus / source[i].toNat % source[i].toNat ∧
            outcome = .error (.notInvertible value source[i])) ∧
      ∀ b, outcome = .ok b →
        (∀ i (hi : i < source.length), ∃ x, b.inverses[i]? = some x ∧ x < source[i] ∧
          modulus / source[i].toNat * x.toNat % source[i].toNat = 1) ∧
        b.weights.size = source.length * target.length ∧
        (∀ i (hi : i < source.length), ∀ j (hj : j < target.length),
          ∃ w, b.weights[i * target.length + j]? = some w ∧
            w.toNat = modulus / source[i].toNat % target[j].toNat) ∧
        (∀ w ∈ b.weights, w < modulusBound) ∧
        (∀ xs scaled, b.prescale xs = .ok scaled → ∀ y ∈ scaled, y < modulusBound) ∧
        ∀ xs output role x bound, b.convert xs output = .error (.operandOutOfRange role x bound) →
          role = .conversionResidues ∧
            ∃ k, xs[k]? = some x ∧ source[k % source.length]? = some bound ∧ bound ≤ x := by
  intro modulus outcome
  refine ⟨h.exists_ofModuli_iff, fun hnot => ?_, fun b hb => ?_⟩
  · rw [pairwise_coprime_iff, not_forall_not] at hnot
    obtain ⟨i, hi, hfirst⟩ := exists_first_sharesFactor hnot
    refine ⟨i, hi, _, hfirst, ?_, h.ofModuli_eq_error hfirst hi⟩
    exact UInt64.toNat_ofNat_of_lt' (Nat.lt_trans
      (Nat.mod_lt _ (h.source_pos (List.getElem_mem hi))) source[i].toNat_lt)
  · have hconverts := converts_of_ofModuli hb
    refine ⟨fun i hi => hconverts.getElem?_inverses hi, ?_,
      fun i hi j hj => hconverts.getElem?_weights hi hj, fun w hw => weight_lt_bound hw,
      fun xs scaled hscaled y hy => hconverts.invertible.scaled_lt_bound hscaled hy,
      fun xs output role x bound hrefused => hconverts.convert_eq_error hrefused⟩
    rw [hconverts.weights_eq, size_residueMatrix, List.length_map, hconverts.length_source]
    rfl

/-- A conversion from 3, 5 and 7 to 11 and 13, and none from 6 and 9. -/
theorem ofModuli_outcome_small :
    (∃ b, ofModuli [3, 5, 7] [11, 13] = .ok b ∧
      (∃ x, b.inverses[1]? = some x ∧ x < 5 ∧ 21 * x.toNat % 5 = 1) ∧
      ∃ w, b.weights[3]? = some w ∧ w.toNat = 21 % 13) ∧
    ¬ ∃ b, ofModuli [6, 9] [11] = .ok b := by
  have hcoprime : Bases [3, 5, 7] [11, 13] :=
    ⟨by decide, by decide, by decide, by simp [modulusBound], by simp [modulusBound]⟩
  have hshared : Bases [6, 9] [11] :=
    ⟨by decide, by decide, by decide, by simp [modulusBound], by simp [modulusBound]⟩
  obtain ⟨hbuilt, -, hparts⟩ := ofModuli_outcome hcoprime
  obtain ⟨b, hb⟩ := hbuilt.2 (by decide)
  obtain ⟨hinverses, -, hweights, -⟩ := hparts b hb
  obtain ⟨w, hw, hvalue⟩ := hweights 1 (by decide) 1 (by decide)
  exact ⟨⟨b, hb, hinverses 1 (by decide), w, hw, hvalue⟩,
    (ofModuli_outcome hshared).1.not.2 (by decide)⟩

end BaseConversion

end RnsEngine
