import RnsEngine.Proofs.Basis
import RnsEngine.Proofs.Galois.Substitution

/-!
# The action of the exponents

Automorphisms in a channel are an action of the odd exponents modulo the order on reduced tiles: the
exponent one changes nothing, and two automorphisms make the one of the product. The inverse step of
a table therefore undoes the step. `Galois.automorphism_action` puts this together.
-/

namespace RnsEngine

namespace Galois

variable {g : Geometry} {steps : GaloisSteps} {step index k : ℕ} {channels : Array Channel}
  {c : Channel}

/-! ### The action -/

/-- A step takes one tile to another, whatever is written over. -/
def Takes (steps : GaloisSteps) (step : ℕ) (channels : Array Channel) (index : ℕ)
    (a b : Tile g.side) : Prop :=
  ∀ output, automorphism a steps step output channels index = .ok b

/-- A step takes every tile to the substitution of its exponent. -/
theorem takes_substitute (h : Selects g steps step channels index k c) (hk : Odd k)
    (a output : Tile g.side) : Takes steps step channels index a (substitute c k a output) :=
  fun output' => by rw [automorphism_eq_ok h, substitute_output_eq hk c a output' output]

/-- Two steps whose exponents have the product one undo each other. -/
theorem takes_back {steps' : GaloisSteps} {step' d : ℕ}
    (hd : Selects g steps step channels index d c) (hk : Selects g steps' step' channels index k c)
    (hodd : Odd d) (hone : d * k % g.order = 1) {a : Tile g.side} (ha : a.Reduced c) :
    ∃ once, Takes steps step channels index a once ∧ Takes steps' step' channels index once a := by
  have hodd' := odd_of_mul_mod_order hone
  refine ⟨_, takes_substitute hd hodd a Tile.zero, fun output => ?_⟩
  rw [automorphism_eq_ok hk, substitute_cancel hodd hodd' hone ha]

/-- **The action of the exponents** on the reduced tiles of a channel. Steps with the exponent one
change nothing, and two steps with odd exponents do what one with the product does.

In a table that is built, the inverse step is the first one whose exponent has the product one with
that of the given step, and is missing only when there is none. The two undo each other in either
order. -/
theorem automorphism_action (g : Geometry) :
    (∀ (c : Channel) (channels : Array Channel) (index : ℕ) (a : Tile g.side), a.Reduced c →
      (∀ steps step, Selects g steps step channels index 1 c →
        Takes steps step channels index a a) ∧
      ∀ steps steps' steps'' step step' step'' k k', Odd k → Odd k' →
        Selects g steps step channels index k c →
        Selects g steps' step' channels index k' c →
        Selects g steps'' step'' channels index (k * k' % g.order) c →
          ∃ once twice, Takes steps step channels index a once ∧
            Takes steps' step' channels index once twice ∧
            Takes steps'' step'' channels index a twice) ∧
    ∀ steps, GaloisSteps.Built g steps → ∀ step < steps.size,
      ∃ found, steps.inverseStep step = .ok found ∧
        (found.isSome ↔ (GaloisSteps.inverses g steps step).Nonempty) ∧
        ∀ t, (found = some t ↔ IsLeast (GaloisSteps.inverses g steps step) t) ∧
          (found = some t → ∀ (c : Channel) (channels : Array Channel) (index : ℕ),
            channels[index]? = some c → ∀ a : Tile g.side, a.Reduced c →
              (∃ once, Takes steps step channels index a once ∧
                Takes steps t channels index once a) ∧
              ∃ once, Takes steps t channels index a once ∧
                Takes steps step channels index once a) := by
  refine ⟨fun c channels index a ha => ⟨fun steps step h output => ?_, ?_⟩, ?_⟩
  · rw [automorphism_eq_ok h, substitute_one]
  · intro steps steps' steps'' step step' step'' k k' hk hk' h h' h''
    refine ⟨_, _, takes_substitute h hk a Tile.zero, takes_substitute h' hk' _ Tile.zero,
      fun output => ?_⟩
    rw [automorphism_eq_ok h'', substitute_mod, substitute_substitute hk hk' ha]
  · intro steps hsteps step hstep
    obtain ⟨found, hfound, hleast⟩ := GaloisSteps.inverseStep_spec hsteps hstep
    refine ⟨found, hfound, ⟨fun h => ?_, fun h => ?_⟩, fun t => ⟨hleast t, ?_⟩⟩
    · obtain ⟨t, ht⟩ := Option.isSome_iff_exists.1 h
      exact ⟨t, ((hleast t).1 ht).1⟩
    · classical
      exact Option.isSome_iff_exists.2 ⟨_, (hleast _).2 (Nat.isLeast_find h)⟩
    · intro ht c channels index hc a ha
      obtain ⟨k, e, hk, he, hone⟩ := ((hleast t).1 ht).1
      have hstepSelects : Selects g steps step channels index k c := ⟨hsteps.order_eq, hk, hc⟩
      have htSelects : Selects g steps t channels index e c := ⟨hsteps.order_eq, he, hc⟩
      have hback : e * k % g.order = 1 := Nat.mul_comm k e ▸ hone
      exact ⟨takes_back hstepSelects htSelects (hsteps.exponents hk).odd hone ha,
        takes_back htSelects hstepSelects (hsteps.exponents he).odd hback ha⟩

/-- Among the exponents 3, 11, 5, 11 and 15 modulo 32, the first is undone by the second and the
third by none, and the first and the third make the fifth. -/
theorem automorphism_action_smallGeometry :
    ∃ (steps : GaloisSteps) (c : Channel), GaloisSteps.Built Basis.smallGeometry steps ∧
      steps.inverseStep 0 = .ok (some 1) ∧ steps.inverseStep 2 = .ok none ∧
        ∀ a : Tile Basis.smallGeometry.side, a.Reduced c →
          (∃ once twice, Takes steps 0 #[c] 0 a once ∧ Takes steps 2 #[c] 0 once twice ∧
            Takes steps 4 #[c] 0 a twice) ∧
          (∃ once, Takes steps 0 #[c] 0 a once ∧ Takes steps 1 #[c] 0 once a) ∧
          ∃ once, Takes steps 1 #[c] 0 a once ∧ Takes steps 0 #[c] 0 once a := by
  let steps : GaloisSteps := { order := 32, elements := #[3, 11, 5, 11, 15] }
  let c : Channel := ⟨97, Barrett.ofModulus 97, by decide, by decide, rfl⟩
  have hbuilt : GaloisSteps.ofElements Basis.smallGeometry [3, 11, 5, 11, 15] = .ok steps := by
    decide
  have hsteps : GaloisSteps.Built Basis.smallGeometry steps := .ofElements hbuilt
  have hselects : ∀ step k, steps.elements[step]? = some k →
      Selects Basis.smallGeometry steps step #[c] 0 k c := fun _ _ h => ⟨by decide, h, rfl⟩
  obtain ⟨hcompose, hinverse⟩ := automorphism_action Basis.smallGeometry
  have hfirst : steps.inverseStep 0 = .ok (some 1) := by decide
  obtain ⟨found, hfound, -, hundo⟩ := hinverse steps hsteps 0 (by decide)
  have hone : found = some 1 := Except.ok.inj (hfound.symm.trans hfirst)
  refine ⟨steps, c, hsteps, hfirst, by decide, fun a ha => ⟨?_, ?_⟩⟩
  · exact (hcompose c #[c] 0 a ha).2 steps steps steps 0 2 4 3 5 (by decide) (by decide)
      (hselects 0 3 rfl) (hselects 2 5 rfl) (hselects 4 15 rfl)
  · exact (hundo 1).2 hone c #[c] 0 rfl a ha

end Galois

end RnsEngine
