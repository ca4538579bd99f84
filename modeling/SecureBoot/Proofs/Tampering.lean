import SecureBoot.Proofs.Mixing
import SecureBoot.Proofs.Course
import SecureBoot.Proofs.Reference

/-!
Tampering shows. An image that a session has found authentic is not authentic any more once one byte
of its payload has been changed, or one byte of its signed section that does not say how the rest is
to be read. Whatever is done with the changed byte on the way, decryption and the search for an inner
header included, what the outer signature covers differs in one place (`Envelope.differAt_covered`),
and a signature that covers one stream covers no such other (`Envelope.not_signed_of_differAt`).
-/

namespace SecureBoot

/-! ### Bytes that the outer signature protects -/

namespace Header

variable {h h' : Header} {image image' : Bytes} {k : Nat}

def Field.Holds (f : Field) (k : Nat) : Prop := f.start ≤ k ∧ k < f.start + f.width

instance (f : Field) (k : Nat) : Decidable (f.Holds k) := inferInstanceAs (Decidable (_ ∧ _))

/-- The fields of the signed section that say how the rest is to be read. The initialization vector is
one of them where the plaintext is signed. -/
def steering (h : Header) : List Field :=
  [.signingType, .length, .keyIndex] ++
    if h.signingWord.toNat = SigningType.nvidiaRsa.number then [.iv] else []

/-- The signature of the header protects byte `k` of an image that begins with it, against being
changed alone. -/
inductive Protects (h : Header) (k : Nat) : Prop where
  | payload (hstart : size ≤ k) (hend : k < size + h.length)
  | signed (hstart : signedStart ≤ k) (hend : k < size) (hsteering : ∀ f ∈ h.steering, ¬ f.Holds k)

theorem Protects.signedStart_le (hk : h.Protects k) : signedStart ≤ k := by
  cases hk with
  | payload hstart => exact Nat.le_trans (by decide) hstart
  | signed hstart => exact hstart

theorem Protects.not_holds (hk : h.Protects k) {f : Field} (hf : f ∈ h.steering) : ¬ f.Holds k := by
  cases hk with
  | payload hstart =>
    have hfit := f.start_add_width_le
    exact fun hholds => absurd hholds.2 (by omega)
  | signed _ _ hsteering => exact hsteering f hf

theorem keyIndex_eq_getD (h : Header) : h.keyIndex = (h.get .keyIndex).getD 0 0 :=
  h.byte_eq_getD_field Field.keyIndex.start

section Changed

variable (hheader : image.take size = h.bytes) (hheader' : image'.take size = h'.bytes)
  (hdiff : DifferAt k image image')
include hheader hheader' hdiff

theorem get_eq_of_differAt {f : Field} (hf : ¬ f.Holds k) : h.get f = h'.get f := by
  rw [get, get, field_eq_slice hheader f.start_add_width_le,
    field_eq_slice hheader' f.start_add_width_le]
  exact hdiff.slice_eq hf

theorem signingWord_eq_of_differAt (hk : h.Protects k) : h.signingWord = h'.signingWord :=
  congrArg (fun b => UInt32.ofNat (ofLE b)) <|
    get_eq_of_differAt hheader hheader' hdiff (hk.not_holds (f := .signingType) (by simp [steering]))

theorem length_eq_of_differAt (hk : h.Protects k) : h.length = h'.length :=
  congrArg (fun b => (UInt32.ofNat (ofLE b)).toNat) <|
    get_eq_of_differAt hheader hheader' hdiff (hk.not_holds (f := .length) (by simp [steering]))

theorem keyIndex_eq_of_differAt (hk : h.Protects k) : h.keyIndex = h'.keyIndex := by
  rw [keyIndex_eq_getD, keyIndex_eq_getD,
    get_eq_of_differAt hheader hheader' hdiff (hk.not_holds (f := .keyIndex) (by simp [steering]))]

theorem signature_eq_of_differAt (hk : h.Protects k) : h.signature = h'.signature := by
  have hstart := hk.signedStart_le
  exact get_eq_of_differAt hheader hheader' hdiff fun hholds => absurd hholds.2 <|
    Nat.not_lt.mpr (Nat.le_trans (by decide) hstart)

theorem iv_eq_of_differAt (hk : h.Protects k)
    (hclaim : h.signingWord.toNat = SigningType.nvidiaRsa.number) : h.iv = h'.iv :=
  get_eq_of_differAt hheader hheader' hdiff
    (hk.not_holds (f := .iv) (by simp [steering, hclaim]))

end Changed

end Header

/-! ### What a signature covers -/

namespace Envelope

variable {h h' : Header} {mode : CryptoMode} {keys : KeyTable} {image image' : Bytes} {k n : Nat}

theorem eight_le_length_stored (e : Envelope) : 8 ≤ e.stored.length := by
  have hlength : e.header.signature.length = 256 := by
    simp [Header.signature, Header.get, Block.field, Header.Field.width, Header.Field.start]
  rcases e with ⟨header, mode⟩
  cases mode <;>
    simp [stored, Header.cmac, Header.ecdsaSignature, Header.rsaSignature, hlength]

/-- Only where the plaintext is signed does decryption come before the signature is checked. -/
theorem covered_of_ne {e : Envelope} (hmode : e.mode ≠ .nvidiaRsa) (payload : Bytes) :
    e.covered keys payload = payload := by
  rcases e with ⟨header, mode⟩
  cases mode with
  | nvidiaRsa => exact absurd rfl hmode
  | symmetric | oemRsa | oemEcc | oemRsaEncrypted => rfl

theorem covered_eq {payload : Bytes} (hiv : mode = .nvidiaRsa → h.iv = h'.iv) :
    covered keys ⟨h, mode⟩ payload = covered keys ⟨h', mode⟩ payload := by
  by_cases hmode : mode = .nvidiaRsa
  · subst hmode
    simp only [covered, plain, hiv rfl]
  · rw [covered_of_ne hmode, covered_of_ne hmode]

theorem differAt_covered {payload payload' : Bytes} (hiv : mode = .nvidiaRsa → h.iv = h'.iv)
    (hdiff : DifferAt n payload payload') :
    DifferAt n (covered keys ⟨h, mode⟩ payload) (covered keys ⟨h', mode⟩ payload') := by
  rw [covered_eq hiv]
  by_cases hmode : mode = .nvidiaRsa
  · subst hmode
    exact hdiff.decryptAt _ _ 0
  · rwa [covered_of_ne hmode, covered_of_ne hmode]

/-- **What the outer signature covers differs in one place** if a byte that it protects differs. -/
theorem differAt_region (keys : KeyTable) (hheader : image.take Header.size = h.bytes)
    (hheader' : image'.take Header.size = h'.bytes) (hdiff : DifferAt k image image')
    (hk : h.Protects k) (hclaim : h.signingWord.toNat = mode.signingType.number) :
    ∃ n, DifferAt n
      (h.signedSection ++ covered keys ⟨h, mode⟩ (payload ⟨h, mode⟩ image))
      (h'.signedSection ++ covered keys ⟨h', mode⟩ (payload ⟨h', mode⟩ image')) := by
  have hsection : h.signedSection = slice image Header.signedStart Header.signedSize :=
    Header.field_eq_slice hheader (by decide)
  have hsection' : h'.signedSection = slice image' Header.signedStart Header.signedSize :=
    Header.field_eq_slice hheader' (by decide)
  have hpayload : payload ⟨h, mode⟩ image = slice image Header.size h.length := rfl
  have hpayload' : payload ⟨h', mode⟩ image' = slice image' Header.size h.length := by
    rw [Header.length_eq_of_differAt hheader hheader' hdiff hk]
    rfl
  have hiv : mode = .nvidiaRsa → h.iv = h'.iv := by
    rintro rfl
    exact Header.iv_eq_of_differAt hheader hheader' hdiff hk hclaim
  rw [hsection, hsection', hpayload, hpayload']
  cases hk with
  | payload hstart hend =>
    have hsame : slice image Header.signedStart Header.signedSize =
        slice image' Header.signedStart Header.signedSize :=
      hdiff.slice_eq fun hin => absurd hin.2 (Nat.not_lt.mpr hstart)
    rw [hsame]
    exact ⟨_, (differAt_covered hiv (hdiff.slice hstart hend)).append_left _⟩
  | signed hstart hend hsteering =>
    have hsame : slice image Header.size h.length = slice image' Header.size h.length :=
      hdiff.slice_eq fun hin => absurd hin.1 (Nat.not_le.mpr hend)
    rw [hsame, covered_eq hiv]
    exact ⟨_, (hdiff.slice hstart hend).append_right _⟩

/-- **A signature does not cover two images** that differ in one byte that it protects. -/
theorem not_signed_of_differAt (hheader : image.take Header.size = h.bytes)
    (hheader' : image'.take Header.size = h'.bytes) (hdiff : DifferAt k image image')
    (hk : h.Protects k) (hclaim : h.signingWord.toNat = mode.signingType.number)
    (hsigned : Signed keys ⟨h, mode⟩ (payload ⟨h, mode⟩ image)) :
    ¬ Signed keys ⟨h', mode⟩ (payload ⟨h', mode⟩ image') := by
  intro hsigned'
  have hstored : stored ⟨h, mode⟩ = stored ⟨h', mode⟩ := by
    simp only [stored, Header.cmac, Header.ecdsaSignature, Header.rsaSignature,
      Header.signature_eq_of_differAt hheader hheader' hdiff hk]
  have hkey : keyBytes keys ⟨h, mode⟩ = keyBytes keys ⟨h', mode⟩ := by
    simp only [keyBytes, Header.keyIndex_eq_of_differAt hheader hheader' hdiff hk]
  have htag : computed keys ⟨h, mode⟩ (payload ⟨h, mode⟩ image) =
      computed keys ⟨h', mode⟩ (payload ⟨h', mode⟩ image') :=
    hsigned.symm.trans (hstored.trans hsigned')
  simp only [computed, hkey, ← hstored] at htag
  have hseed := eq_of_tagOfSeed (eight_le_length_stored ⟨h, mode⟩) htag
  obtain ⟨n, hregion⟩ := differAt_region keys hheader hheader' hdiff hk hclaim
  exact hregion.fnv_ne fnvBasis ((UInt64.xor_left_inj _).mp hseed)

end Envelope

/-! ### Images -/

/-- An image that is accepted is signed as a whole by its outer header. -/
theorem Rules.Accepts.outer {rules : Rules} {image : Bytes} (haccepts : rules.Accepts image) :
    ∃ e : Envelope, e.Opens rules.source rules.permitted rules.capacity image ∧
      Header.size + e.size ≤ image.length ∧ e.Signed rules.keys (e.payload image) := by
  cases haccepts with
  | single opens complete signed => exact ⟨_, opens, complete, signed⟩
  | nested opens complete signed => exact ⟨_, opens, complete, signed⟩

/-- Rules that know the same keys do not accept two images that differ in one byte that the outer
signature protects. The header claims its mode itself, so that it is the same for both. -/
theorem Rules.not_accepts_of_set {rules rules' : Rules} (hkeys : rules.keys = rules'.keys)
    {image : Bytes} (haccepts : rules.Accepts image)
    {h : Header} (hheader : image.take Header.size = h.bytes) {k : Nat} (hk : h.Protects k)
    {b : UInt8} (hb : image[k]? ≠ some b) : ¬ rules'.Accepts (image.set k b) := by
  intro haccepts'
  obtain ⟨⟨header, mode⟩, opens, complete, signed⟩ := haccepts.outer
  obtain ⟨⟨header', mode'⟩, opens', -, signed'⟩ := haccepts'.outer
  obtain rfl : header = h := by
    cases header
    cases h
    congr
    exact Block.ext (opens.header.symm.trans hheader)
  have hlt : k < image.length := by
    cases hk with
    | payload _ hend => exact Nat.lt_of_lt_of_le hend complete
    | signed _ hend => exact Nat.lt_of_lt_of_le hend (Nat.le_trans (Nat.le_add_right ..) complete)
  have hdiff := DifferAt.of_set hlt hb
  obtain ⟨hclaim, -⟩ := resolve_eq_ok_iff.mp opens.resolves
  obtain ⟨hclaim', -⟩ := resolve_eq_ok_iff.mp opens'.resolves
  obtain rfl : mode = mode' := by
    have hword := Header.signingWord_eq_of_differAt hheader opens'.header hdiff hk
    apply CryptoMode.signingType_injective
    apply SigningType.number_injective
    rw [← hclaim, ← hclaim']
    exact congrArg UInt32.toNat hword
  rw [← hkeys] at signed'
  exact Envelope.not_signed_of_differAt hheader opens'.header hdiff hk hclaim signed signed'

/-! ### Sessions -/

/-- A verdict is on what has been pushed. -/
theorem Session.Coherent.judgement_of_finalize {o : Opening} {image : Bytes} {s : Session}
    (h : s.Coherent o image) (hfaults : o.board.faults = []) {v : Verified}
    (hok : Session.finalize.outcome s = .ok v) : ∃ policy, o.judgement policy image = .ok v := by
  have hended : s.phase ≠ .processing → False := fun hphase => by
    rw [outcome_finalize_invalid hphase] at hok
    cases hok
  cases h with
  | awaiting h => exact (hended (by rw [h.phase]; decide)).elim
  | standing h => exact ⟨_, (h.outcome_finalize hfaults).symm.trans hok⟩
  | ended _ hphase =>
    refine (hended fun hprocessing => ?_).elim
    rw [hprocessing] at hphase
    exact absurd hphase (by decide)

namespace Authenticator

variable {chip : Chip} {fuses fuses' : FuseBank} {state state' : Rollback.State} {type : BinaryType}
  {dest dest' : Bytes} {s s' : Session}

/-- What a session on a board without faults has found authentic is accepted by the rules of its
type. -/
theorem accepts_of_finalize
    (hopen : (openSession type dest).outcome (fresh chip (.fresh fuses []) state) = .ok s)
    {requests : List Session.Request} {v : Verified}
    (hok : Session.finalize.outcome (s.after requests) = .ok v) :
    ∃ policy, Rules.Accepts
      { source := s.source
        permitted := (chip.policy type).allowed
        keys := (chip.policy type).keys
        policy := policy
        capacity := dest.length } (Session.pushed requests) := by
  obtain ⟨hawaits, hfaults⟩ := awaits_of_openSession hopen
  obtain ⟨-, hopening, -⟩ := (ensures_openSession (.refl _) rfl type dest).outcome_ok hopen
  have hring : s.opening.ring.subkeys = .ofSlot s.opening.ring.keys.cmac := by
    rw [hopening]
    rfl
  have hcoherent := (Session.Coherent.awaiting hawaits rfl).after requests
  obtain ⟨policy, hjudgement⟩ := hcoherent.judgement_of_finalize hfaults hok
  have haccepts := (Opening.judgement_ok_iff_accepts hring).mp ⟨v, hjudgement⟩
  rw [Opening.rules, hopening] at haccepts
  exact ⟨policy, haccepts⟩

/-- **Tampering is caught**: without faults, once an image has been found authentic, an image that
differs from it in one byte which the outer signature protects is never found authentic for the same
type of binary, whatever the chunks, the destination, the fuses and the NVIDIA signatures required. -/
theorem tampering_is_caught
    (hopen : (openSession type dest).outcome (fresh chip (.fresh fuses []) state) = .ok s)
    (hopen' : (openSession type dest').outcome (fresh chip (.fresh fuses' []) state') = .ok s')
    (requests requests' : List Session.Request) {v : Verified}
    (hok : Session.finalize.outcome (s.after requests) = .ok v) {h : Header}
    (hheader : (Session.pushed requests).take Header.size = h.bytes) {k : Nat} (hk : h.Protects k)
    {b : UInt8} (hb : (Session.pushed requests)[k]? ≠ some b)
    (hchanged : Session.pushed requests' = (Session.pushed requests).set k b) (v' : Verified) :
    Session.finalize.outcome (s'.after requests') ≠ .ok v' := by
  intro hok'
  obtain ⟨policy, haccepts⟩ := accepts_of_finalize hopen hok
  obtain ⟨policy', haccepts'⟩ := accepts_of_finalize hopen' hok'
  rw [hchanged] at haccepts'
  refine Rules.not_accepts_of_set ?_ haccepts hheader hk hb haccepts'
  rfl

/-- A token that is signed as it ought to be, and the same one with a byte of it changed. -/
theorem tampering_is_caught_token :
    let blank := Header.blank .oemRsa 32
    let token : Bytes := List.replicate 32 0
    let signature :=
      Envelope.computed (Chip.t194.policy .rollbackToken).keys ⟨blank, .oemRsa⟩ token
    let image := (blank.set .signature signature).bytes ++ token
    ∃ s, (openSession .rollbackToken token).outcome (fresh .t194 (.fresh .blank []) .disabled) =
        .ok s ∧
      (∃ v, Session.finalize.outcome (s.after [.push image true]) = .ok v) ∧
      ∀ v, Session.finalize.outcome (s.after [.push (image.set 410 1) true]) ≠ .ok v := by
  intro blank token signature image
  have hopen : (openSession .rollbackToken token).outcome
      (fresh .t194 (.fresh .blank []) .disabled) = .ok _ := rfl
  refine ⟨_, hopen, ⟨⟨⟨0, 32⟩, 1, 0, false⟩, ?_⟩, fun v => ?_⟩
  · decide +kernel
  · refine tampering_is_caught hopen hopen [.push image true] [.push (image.set 410 1) true]
      (v := ⟨⟨0, 32⟩, 1, 0, false⟩) ?_ (h := blank.set .signature signature) ?_ (k := 410)
      (.payload ?_ ?_) (b := 1) ?_ ?_ v
    all_goals decide +kernel

end Authenticator

end SecureBoot
