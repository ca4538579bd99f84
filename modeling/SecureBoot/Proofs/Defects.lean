import Mathlib.Order.WellFounded
import SecureBoot.Proofs.Outline

/-!
What can be wrong with a header. A defect (`Defect.In`) is a fact about the bytes at the place of a
header and about what the header is held against (`Terms`). Each one stands by itself, so there may be
several at once; the first of them, in the order in which they are looked for (`Defect.First`), says how
the header is refused (`Opening.refuses_of_first`).
-/

namespace SecureBoot

/-! ### Claims -/

/-- The header claims to be signed as headers of a mode are. -/
def Header.Claims (h : Header) (m : CryptoMode) : Prop := h.signingWord.toNat = m.signingType.number

theorem Header.Claims.unique {h : Header} {m m' : CryptoMode} (hm : h.Claims m) (hm' : h.Claims m') :
    m' = m :=
  CryptoMode.signingType_injective (SigningType.number_injective (hm'.symm.trans hm))

/-- The error for a claim that the source does not admit. Fuses that ask for ECC with encryption
support no OEM mode at all. -/
def ModeSource.mismatch : ModeSource → Error
  | .fixed _ => .verifyFailed
  | .fused mode => if mode = .oemEccEncrypted then .notSupported else .verifyFailed

theorem ModeSource.select_of_mismatch {source : ModeSource} {claim : SigningType}
    (h : ∀ m, source.Admits m → claim ≠ m.signingType) :
    source.select claim = .error source.mismatch := by
  cases source with
  | fixed mode =>
    rw [select, CryptoMode.expect, if_neg (h mode rfl)]
    rfl
  | fused selected =>
    have hnvidia : claim ≠ .nvidiaRsa := h .nvidiaRsa (.inl rfl)
    simp only [select, if_neg hnvidia, mismatch, ← FusedMode.oemMode?_eq_none_iff]
    cases hoem : selected.oemMode? with
    | none => rfl
    | some mode =>
      simp only [CryptoMode.expect, if_neg (h mode (.inr hoem)), if_neg (Option.some_ne_none _)]

section Resolve

variable {claim : UInt32} {source : ModeSource} {permitted : ModeSet}

theorem resolve_of_unknown (h : ∀ type : SigningType, claim.toNat ≠ type.number) :
    resolve claim source permitted = .error .notSupported := by
  have hnone : SigningType.ofNumber? claim.toNat = none := by
    cases hfound : SigningType.ofNumber? claim.toNat with
    | none => rfl
    | some type => exact absurd (Int.ofNat_inj.mp (SigningType.ofNumber?_eq_some_iff.mp hfound)) (h type)
  rw [resolve, hnone]

theorem resolve_of_mismatched {type : SigningType} (htype : claim.toNat = type.number)
    (h : ∀ m, source.Admits m → claim.toNat ≠ m.signingType.number) :
    resolve claim source permitted = .error source.mismatch := by
  have hselect : source.select type = .error source.mismatch :=
    ModeSource.select_of_mismatch fun m hm heq => h m hm (htype.trans (congrArg _ heq))
  rw [resolve, htype, SigningType.ofNumber?_number]
  simp only [hselect]

theorem resolve_of_forbidden {m : CryptoMode} (hclaim : claim.toNat = m.signingType.number)
    (hadmits : source.Admits m) (h : m ∉ permitted) :
    resolve claim source permitted = .error .verifyFailed := by
  rw [resolve, hclaim, SigningType.ofNumber?_number]
  simp only [ModeSource.select_eq_ok_iff.mpr ⟨rfl, hadmits⟩, if_neg h]

end Resolve

/-! ### Defects -/

/-- What a header is held against. -/
structure Terms where
  source : ModeSource
  permitted : ModeSet
  limit : SizeLimit

/-- What can be wrong at the place of a header. -/
inductive Defect where
  /-- There is no header. -/
  | absent
  /-- The bytes end before the header does. -/
  | truncated
  /-- The header declares more payload than there is room for. -/
  | oversized
  /-- It claims a signing type that does not exist. -/
  | unknown
  /-- It claims a signing type that is that of no mode which the source admits. -/
  | mismatched
  /-- It claims the signing type of a mode that is not permitted. -/
  | forbidden
  /-- It selects an OEM key that does not exist, in a mode that uses one. -/
  | keyless
deriving DecidableEq, Repr

namespace Defect

/-- The order in which defects are looked for. -/
def rank : Defect → Nat
  | .absent => 0
  | .truncated => 1
  | .oversized => 2
  | .unknown => 3
  | .mismatched => 4
  | .forbidden => 5
  | .keyless => 6

def error (terms : Terms) : Defect → Error
  | .absent => .notFound
  | .truncated => .invalid
  | .oversized => terms.limit.excess
  | .unknown => .notSupported
  | .mismatched => terms.source.mismatch
  | .forbidden => .verifyFailed
  | .keyless => .invalid

/-- The bytes at the place of a header have this defect, whatever else may be wrong with them. -/
def In (terms : Terms) (b : Bytes) : Defect → Prop
  | .absent => ¬ Header.Announced b
  | .truncated => b.length < Header.size
  | .oversized => ∃ h : Header, b.take Header.size = h.bytes ∧ terms.limit.bytes < h.length
  | .unknown => ∃ h : Header, b.take Header.size = h.bytes ∧
      ∀ type : SigningType, h.signingWord.toNat ≠ type.number
  | .mismatched => ∃ h : Header, b.take Header.size = h.bytes ∧
      ∀ m, terms.source.Admits m → ¬ h.Claims m
  | .forbidden => ∃ h : Header, b.take Header.size = h.bytes ∧ ∃ m, h.Claims m ∧ m ∉ terms.permitted
  | .keyless => ∃ h : Header, b.take Header.size = h.bytes ∧
      ∃ m, h.Claims m ∧ m.usesOemKey ∧ CryptoMode.oemPublicKeys ≤ h.keyIndex.toNat

/-- The defect that is noticed. -/
structure First (terms : Terms) (b : Bytes) (d : Defect) : Prop where
  here : d.In terms b
  earlier : ∀ d' : Defect, d'.In terms b → d.rank ≤ d'.rank

variable {terms : Terms} {b : Bytes} {d : Defect}

/-- Where there is a defect, one is noticed. -/
theorem In.exists_first (h : d.In terms b) : ∃ d', First terms b d' := by
  obtain ⟨first, hfirst, hmin⟩ :=
    (measure rank).wf.has_min {d | d.In terms b} ⟨d, h⟩
  exact ⟨first, hfirst, fun d' hd' => Nat.le_of_not_lt (hmin d' hd')⟩

theorem First.not_in (h : First terms b d) (d' : Defect) (hlt : d'.rank < d.rank) :
    ¬ d'.In terms b := fun hd' => Nat.not_lt_of_le (h.earlier d' hd') hlt

/-- A header is found as long as nothing is wrong with its frame. -/
theorem First.announced (h : First terms b d) (hd : d ≠ .absent) : Header.Announced b := by
  by_contra habsent
  have hrank : d.rank ≤ 0 := h.earlier .absent habsent
  cases d <;> first | exact hd rfl | exact absurd hrank (by decide)

/-- A header that is read has none of the defects which are looked for before. -/
theorem First.parse (h : First terms b d) (hlate : rank .oversized < d.rank) {header : Header}
    (hbytes : b.take Header.size = header.bytes) :
    Header.parse b terms.limit = .ok (some header) := by
  have hfit : ¬ terms.limit.bytes < header.length := fun hlt =>
    h.not_in _ hlate ⟨header, hbytes, hlt⟩
  have habsent : d ≠ .absent := by
    rintro rfl
    cases hlate
  exact Header.parse_eq_some_iff.mpr ⟨h.announced habsent, hbytes, Nat.le_of_not_lt hfit⟩

/-- A claim that is looked at for more than its mismatch is that of a mode which the source admits. -/
theorem First.admits (h : First terms b d) (hlate : rank .mismatched < d.rank) {header : Header}
    (hbytes : b.take Header.size = header.bytes) {m : CryptoMode} (hclaims : header.Claims m) :
    terms.source.Admits m := by
  have hadmitted : ∃ m', terms.source.Admits m' ∧ header.Claims m' := by
    by_contra hnone
    exact h.not_in _ hlate ⟨header, hbytes, fun m' hm' hclaims' => hnone ⟨m', hm', hclaims'⟩⟩
  obtain ⟨m', hadmits, hclaims'⟩ := hadmitted
  rwa [hclaims.unique hclaims'] at hadmits

end Defect

/-! ### Refusals -/

namespace Header

variable {b : Bytes} {limit : SizeLimit}

theorem parse_of_truncated (ha : Announced b) (h : b.length < size) :
    parse b limit = .error .invalid := by
  rw [parse, if_pos ha, Block.ofStart?_eq_none_iff.mpr h]

theorem parse_of_oversized (ha : Announced b) {header : Header} (hbytes : b.take size = header.bytes)
    (h : limit.bytes < header.length) : parse b limit = .error limit.excess := by
  rw [parse, if_pos ha, Block.ofStart?_eq_some_iff.mpr hbytes]
  exact if_pos h

end Header

namespace Opening

variable {o : Opening} {permitted : ModeSet} {limit : SizeLimit} {b : Bytes} {d : Defect}

/-- The header at the start of the bytes is refused. -/
inductive Refuses (o : Opening) (permitted : ModeSet) (limit : SizeLimit) (b : Bytes) (e : Error) :
    Prop where
  | unread (hparse : Header.parse b limit = .error e)
  | unclassified {h : Header} (hparse : Header.parse b limit = .ok (some h))
      (hclassify : o.classify permitted h = .error e)

theorem classify_of_resolve_error {h : Header} {e : Error}
    (hr : resolve h.signingWord o.source permitted = .error e) :
    o.classify permitted h = .error e := by
  rw [classify, hr]
  rfl

theorem classify_of_keyless {h : Header} {m : CryptoMode}
    (hr : resolve h.signingWord o.source permitted = .ok m) (huses : m.usesOemKey)
    (hkey : CryptoMode.oemPublicKeys ≤ h.keyIndex.toNat) :
    o.classify permitted h = .error .invalid := by
  have hnone : ¬ Envelope.HasKey ⟨h, m⟩ := fun hhas => Nat.not_lt_of_le hkey (hhas huses)
  rw [classify, hr]
  exact if_neg hnone

/-- **The first defect is the cause of the refusal.** -/
theorem refuses_of_first (h : d.First ⟨o.source, permitted, limit⟩ b) (hd : d ≠ .absent) :
    o.Refuses permitted limit b (d.error ⟨o.source, permitted, limit⟩) := by
  have hannounced := h.announced hd
  have hhere := h.here
  cases d with
  | absent => exact absurd rfl hd
  | truncated => exact .unread (Header.parse_of_truncated hannounced hhere)
  | oversized =>
    obtain ⟨header, hbytes, hlt⟩ := hhere
    exact .unread (Header.parse_of_oversized hannounced hbytes hlt)
  | unknown =>
    obtain ⟨header, hbytes, hunknown⟩ := hhere
    exact .unclassified (h.parse (by decide) hbytes)
      (classify_of_resolve_error (resolve_of_unknown hunknown))
  | mismatched =>
    obtain ⟨header, hbytes, hmismatched⟩ := hhere
    have hknown : ∃ type : SigningType, header.signingWord.toNat = type.number := by
      by_contra hunknown
      exact h.not_in .unknown (by decide)
        ⟨header, hbytes, fun type heq => hunknown ⟨type, heq⟩⟩
    obtain ⟨type, htype⟩ := hknown
    exact .unclassified (h.parse (by decide) hbytes)
      (classify_of_resolve_error (resolve_of_mismatched htype hmismatched))
  | forbidden =>
    obtain ⟨header, hbytes, m, hclaims, hforbidden⟩ := hhere
    have hadmits := h.admits (by decide) hbytes hclaims
    exact .unclassified (h.parse (by decide) hbytes)
      (classify_of_resolve_error (resolve_of_forbidden hclaims hadmits hforbidden))
  | keyless =>
    obtain ⟨header, hbytes, m, hclaims, huses, hkey⟩ := hhere
    have hadmits := h.admits (by decide) hbytes hclaims
    have hpermitted : m ∈ permitted := by
      by_contra hforbidden
      exact h.not_in .forbidden (by decide) ⟨header, hbytes, m, hclaims, hforbidden⟩
    exact .unclassified (h.parse (by decide) hbytes)
      (classify_of_keyless (resolve_eq_ok_iff.mpr ⟨hclaims, hadmits, hpermitted⟩) huses hkey)

end Opening

end SecureBoot
