import SecureBoot.Mode.Fused

/-!
Resolving the claim of a header to the one mode it is authenticated with. What a header may claim
is settled by where the single OEM mode comes from (`ModeSource`) and by the permitted modes;
`resolve_eq_ok_iff` states the rule.
-/

namespace SecureBoot

/-- Where the one OEM mode comes from that a header may claim. -/
inductive ModeSource where
  /-- The mode that the fuses of the part select. -/
  | fused (mode : FusedMode)
  /-- One mode that the chip prescribes, whatever the fuses say. -/
  | fixed (mode : CryptoMode)
deriving DecidableEq, Repr

/-- Accepts the claim that a header of `mode` makes, and no other. -/
def CryptoMode.expect (mode : CryptoMode) (claim : SigningType) : Except Error CryptoMode :=
  if claim = mode.signingType then .ok mode else .error .verifyFailed

theorem CryptoMode.expect_eq_ok_iff {mode chosen : CryptoMode} {claim : SigningType} :
    mode.expect claim = .ok chosen ↔ claim = chosen.signingType ∧ chosen = mode := by
  unfold expect
  split
  · next h =>
    constructor
    · intro he
      cases he
      exact ⟨h, rfl⟩
    · rintro ⟨-, rfl⟩
      rfl
  · next h =>
    simp only [reduceCtorEq, false_iff, not_and]
    rintro hc rfl
    exact h hc

namespace ModeSource

/-- The mode that a claim stands for, the permitted modes aside. A fixed source accepts its own mode
only; otherwise a header that claims NVIDIA's signature is taken at its word and any other has to
claim the mode of the fuses. -/
def select (source : ModeSource) (claim : SigningType) : Except Error CryptoMode :=
  match source with
  | .fixed mode => mode.expect claim
  | .fused selected =>
    if claim = .nvidiaRsa then .ok .nvidiaRsa
    else match selected.oemMode? with
      | none => .error .notSupported
      | some mode => mode.expect claim

/-- Whether a header may resolve to `mode` at all under this source. -/
def Admits (source : ModeSource) (mode : CryptoMode) : Prop :=
  match source with
  | .fixed only => mode = only
  | .fused selected => mode = .nvidiaRsa ∨ selected.oemMode? = some mode

theorem select_eq_ok_iff {source : ModeSource} {claim : SigningType} {mode : CryptoMode} :
    source.select claim = .ok mode ↔ claim = mode.signingType ∧ source.Admits mode := by
  cases source with
  | fixed only => exact CryptoMode.expect_eq_ok_iff
  | fused selected =>
    simp only [select, Admits]
    by_cases hn : claim = .nvidiaRsa
    · subst hn
      have hm : SigningType.nvidiaRsa = mode.signingType ↔ mode = .nvidiaRsa :=
        ⟨fun h => CryptoMode.signingType_injective h.symm, fun h => h ▸ rfl⟩
      rw [if_pos rfl, hm]
      simp only [Except.ok.injEq]
      exact ⟨fun h => ⟨h.symm, Or.inl h.symm⟩, fun h => h.1.symm⟩
    · have hm : claim = mode.signingType → mode ≠ .nvidiaRsa := by
        rintro rfl rfl
        exact hn rfl
      rw [if_neg hn]
      cases hf : selected.oemMode? with
      | none =>
        simp only [reduceCtorEq, or_false, false_iff, not_and]
        exact hm
      | some oem =>
        simp only [CryptoMode.expect_eq_ok_iff, Option.some.injEq]
        exact ⟨fun h => ⟨h.1, Or.inr h.2.symm⟩,
          fun h => ⟨h.1, (h.2.resolve_left (hm h.1)).symm⟩⟩

end ModeSource

/-- The mode that a header claiming `claim` is authenticated with. -/
def resolve (claim : UInt32) (source : ModeSource) (permitted : ModeSet) :
    Except Error CryptoMode :=
  match SigningType.ofNumber? claim.toNat with
  | none => .error .notSupported
  | some type =>
    match source.select type with
    | .error e => .error e
    | .ok mode => if mode ∈ permitted then .ok mode else .error .verifyFailed

theorem resolve_eq_ok_iff {claim : UInt32} {source : ModeSource} {permitted : ModeSet}
    {mode : CryptoMode} :
    resolve claim source permitted = .ok mode ↔
      claim.toNat = mode.signingType.number ∧ source.Admits mode ∧ mode ∈ permitted := by
  unfold resolve
  cases ht : SigningType.ofNumber? claim.toNat with
  | none =>
    simp only [reduceCtorEq, false_iff, not_and]
    intro hc
    rw [hc, SigningType.ofNumber?_number] at ht
    cases ht
  | some type =>
    have hn : claim.toNat = type.number := by
      have := SigningType.ofNumber?_eq_some_iff.mp ht
      omega
    have hclaim : claim.toNat = mode.signingType.number ↔ type = mode.signingType := by
      rw [hn]
      exact ⟨SigningType.number_injective, congrArg SigningType.number⟩
    rw [hclaim]
    simp only
    split
    · next e hs =>
      simp only [reduceCtorEq, false_iff, not_and]
      intro hm ha
      rw [ModeSource.select_eq_ok_iff.mpr ⟨hm, ha⟩] at hs
      cases hs
    · next chosen hs =>
      obtain ⟨hm, ha⟩ := ModeSource.select_eq_ok_iff.mp hs
      split
      · next hp =>
        constructor
        · intro h
          cases h
          exact ⟨hm, ha, hp⟩
        · rintro ⟨hm', -, -⟩
          rw [CryptoMode.signingType_injective (hm.symm.trans hm')]
      · next hp =>
        simp only [reduceCtorEq, false_iff, not_and]
        intro hm' _ hp'
        rw [CryptoMode.signingType_injective (hm'.symm.trans hm)] at hp'
        exact hp hp'

end SecureBoot
