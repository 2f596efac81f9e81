import RnsEngine.Proofs.Transform.Inversion

/-!
# Bases with derived tables

A basis is derived when its tables are computed from the roots that are found for its channels
(`Basis.Derived`): from given channels, or from primes that were searched for. Such a basis has the
geometry it was asked for, and every channel of it has the tables of a root
(`Basis.Derived.spec`).
-/

namespace RnsEngine

namespace Basis

variable {g : Geometry} {b : Basis}

/-- The moduli are those of the channels. -/
theorem moduli_eq (b : Basis) : b.moduli = b.channels.map (·.modulus) := by
  simp [moduli, channels]

/-- There are as many moduli as channels. -/
theorem size_moduli (b : Basis) : b.moduli.size = b.size := by
  simp [moduli, size]

/-- Every channel has the tables of a root. -/
def Transforms (b : Basis) : Prop := ∀ e ∈ b.entries, ∃ r, e.Transforms r

/-- A basis of given channels has the geometry that was asked for, these channels, and for each of
them the tables of a root. -/
theorem ofChannels_spec {channels : List Channel} (h : ofChannels g channels = .ok b) :
    b.geometry = g ∧ b.channels.toList = channels ∧ b.Transforms := by
  obtain ⟨entries, hentries, h⟩ := bind_eq_ok_iff.1 h
  obtain ⟨hchannels, hall⟩ :=
    mapM_eq_ok_spec (fun _ _ => TabledChannel.ofChannel_transforms) hentries
  unfold ofEntries at h
  split at h
  · obtain rfl := Except.ok.inj h
    refine ⟨rfl, ?_, fun e he => hall e (Array.mem_toList_iff.2 he)⟩
    rw [Basis.channels, Array.toList_map]
    exact hchannels
  · cases h

/-- A basis of channels is refused for what the first of them without a root is refused for. -/
theorem ofChannels_eq_error_iff {channels : List Channel} (hne : channels ≠ []) {e : Fault} :
    ofChannels g channels = .error e ↔
      channels.mapM (·.primitiveRoot (UInt64.ofNat g.ringDim)) = .error e := by
  rw [← mapM_eq_error_congr fun _ _ => TabledChannel.ofChannel_eq_error_iff, ofChannels,
    bind_eq_error_iff]
  refine or_iff_left ?_
  rintro ⟨entries, hentries, h⟩
  have hlength := (mapM_eq_ok_iff.1 hentries).length_eq
  have hpos : 0 < entries.toArray.size := by
    rw [List.size_toArray, ← hlength]
    exact List.length_pos_iff.2 hne
  rw [ofEntries, dif_pos hpos] at h
  cases h

/-- The tables of a basis are derived from the roots that are found for its channels. -/
inductive Derived (g : Geometry) (b : Basis) : Prop where
  | ofChannels {channels : List Channel} (h : Basis.ofChannels g channels = .ok b)
  | generate {bits count : ℕ} (h : Basis.generate g bits count = .ok b)

/-- A derived basis is made of channels alone, those of given moduli or of primes. -/
theorem Derived.exists_channels (h : Derived g b) :
    ∃ channels, Basis.ofChannels g channels = .ok b := by
  cases h with
  | ofChannels h => exact ⟨_, h⟩
  | generate h =>
    obtain ⟨walk, -, h⟩ := bind_eq_ok_iff.1 h
    obtain ⟨primes, -, h⟩ := bind_eq_ok_iff.1 h
    obtain ⟨channels, -, h⟩ := bind_eq_ok_iff.1 h
    exact ⟨channels, h⟩

/-- A derived basis has the geometry that was asked for, and the tables of roots. -/
theorem Derived.spec (h : Derived g b) : b.geometry = g ∧ b.Transforms := by
  obtain ⟨channels, hchannels⟩ := h.exists_channels
  obtain ⟨hgeometry, -, htransforms⟩ := ofChannels_spec hchannels
  exact ⟨hgeometry, htransforms⟩

/-- Two tiles of sixteen words. -/
def smallGeometry : Geometry := ⟨2, 2, Nat.le_refl 2, by decide, Nat.two_pos⟩

/-- There are derived bases: the first two primes above thirty-two that suit sixteen words make
one. -/
theorem exists_derived_smallGeometry : ∃ b, Derived smallGeometry b ∧ b.moduli = #[97, 193] := by
  let c : Channel := ⟨97, Barrett.ofModulus 97, by decide, by decide, rfl⟩
  let c' : Channel := ⟨193, Barrett.ofModulus 193, by decide, by decide, rfl⟩
  have hsucceeds : (Basis.ofChannels smallGeometry [c, c']).isOk = true := by decide +kernel
  obtain ⟨b, hok⟩ := exists_eq_ok_of_isOk hsucceeds
  obtain ⟨-, hchannels, -⟩ := ofChannels_spec hok
  have hmoduli : b.moduli.toList = [97, 193] := by
    rw [moduli_eq, Array.toList_map, hchannels]
    rfl
  exact ⟨b, .ofChannels hok, Array.toList_inj.1 hmoduli⟩

end Basis

end RnsEngine
