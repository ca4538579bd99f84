import SecureBoot.Proofs.Chunking

/-!
The verdict as a check of the whole image. `Rules.Accepts` holds an image against the rules of its
type at once: it parses the outermost header, decrypts the payload in one piece, looks for a header
at the start of the plaintext and computes each tag over the region that the signature covers. No
session, no operation and no chunk occurs in it.

A session that is handed the image in chunks and then finalized finds it authentic exactly if that
check passes (`finalize_ok_iff_accepts`).
-/

namespace SecureBoot

namespace Envelope

/-! ### Signatures over a whole payload -/

section Signature

variable (keys : KeyTable) (e : Envelope)

/-- The payload once it has been decrypted, if the mode asks for that. -/
def plain (payload : Bytes) : Bytes :=
  if e.mode.decrypts then decryptAt (e.mode.decryptSlot keys) e.header.iv 0 payload else payload

/-- What the signature covers of a payload. An encrypting OEM signs what is on storage, everybody
else the plaintext. -/
def covered (payload : Bytes) : Bytes :=
  match e.mode with
  | .oemRsaEncrypted => payload
  | _ => e.plain keys payload

/-- The bytes by which the key takes part in a signature. -/
def keyBytes : Bytes :=
  match e.mode with
  | .symmetric => (Subkeys.ofSlot keys.cmac).k1 ++ (Subkeys.ofSlot keys.cmac).k2
  | .oemRsa | .oemEcc | .oemRsaEncrypted =>
    (Key.oem e.header.keyIndex).label.map fun c => UInt8.ofNat c.toNat
  | .nvidiaRsa => Key.nvidia.label.map fun c => UInt8.ofNat c.toNat

/-- The signature that the header holds. -/
def stored : Bytes :=
  match e.mode with
  | .symmetric => e.header.cmac
  | .oemEcc => e.header.ecdsaSignature
  | .oemRsa | .oemRsaEncrypted | .nvidiaRsa => e.header.rsaSignature

/-- The signature that the header ought to hold for a payload. -/
def computed (payload : Bytes) : Bytes :=
  let digest := fnv fnvBasis (e.header.signedSection ++ e.covered keys payload)
  tagOfSeed (digest ^^^ fnv fnvBasis (e.keyBytes keys)) e.stored.length

/-- The header holds the signature of the payload. -/
def Signed (payload : Bytes) : Prop := e.stored = e.computed keys payload

instance (payload : Bytes) : Decidable (e.Signed keys payload) :=
  inferInstanceAs (Decidable (_ = _))

end Signature

end Envelope

/-! ### The verifier of an envelope -/

theorem Job.verdict_eq_ok_iff {j : Job} (h : j.algorithm.verifies = true) {data : Bytes} :
    j.verdict data = .ok () ↔ j.setup.expected = j.tag data := by
  unfold verdict
  by_cases htag : j.setup.expected = j.tag data <;> simp [h, htag]

theorem Job.verdict_of_decrypts {j : Job} (h : j.algorithm = .aesCbcDecrypt) (data : Bytes) :
    j.verdict data = .ok () := by
  simp [verdict, h, Algorithm.verifies]

namespace Envelope

variable (ring : KeyRing) (e : Envelope) (payload : Bytes)

theorem output_eq_plain : e.output ring payload = e.plain ring.keys payload := by
  rcases e with ⟨header, mode⟩
  cases mode <;> rfl

/-- The job that checks the signature of an envelope. -/
def verifier : Job :=
  e.job ring <|
    match e.mode with
    | .symmetric => .aesCmac
    | .oemEcc => .ecdsa
    | .oemRsa | .oemRsaEncrypted | .nvidiaRsa => .rsaPss

theorem verifies_verifier : (e.verifier ring).algorithm.verifies = true := by
  rcases e with ⟨header, mode⟩
  cases mode <;> rfl

theorem expected_verifier : (e.verifier ring).setup.expected = e.stored := by
  rcases e with ⟨header, mode⟩
  cases mode <;> rfl

/-- A CMAC checks with the sub-keys that the ring holds, so these have to be those of its slot. -/
theorem keyBytes_verifier {ring : KeyRing} {e : Envelope}
    (hring : e.mode = .symmetric → ring.subkeys = .ofSlot ring.keys.cmac) :
    (e.verifier ring).setup.keyBytes = e.keyBytes ring.keys := by
  rcases e with ⟨header, mode⟩
  cases mode with
  | symmetric =>
    change ring.subkeys.k1 ++ ring.subkeys.k2 = _
    rw [hring rfl]
    rfl
  | oemRsa | oemEcc | oemRsaEncrypted | nvidiaRsa => rfl

/-- A decryption accepts anything, so the verdicts on an envelope come down to that of its
verifier, on the region that its signature covers. -/
theorem unanimous_iff_verifier :
    Unanimous (e.strands ring payload) ↔
      (e.verifier ring).verdict (e.header.signedSection ++ e.covered ring.keys payload) = .ok () := by
  rcases e with ⟨header, mode⟩
  cases mode with
  | symmetric | oemRsa | oemEcc => exact List.forall_mem_singleton
  | oemRsaEncrypted =>
    -- The signature is checked first, on the ciphertext.
    constructor
    · intro h
      exact h _ (List.mem_cons_self ..)
    · intro h
      have hdecrypts :=
        Job.verdict_of_decrypts (j := job ring ⟨header, .oemRsaEncrypted⟩ .aesCbcDecrypt) rfl
      exact List.forall_mem_cons.mpr ⟨h, List.forall_mem_singleton.mpr (hdecrypts _)⟩
  | nvidiaRsa =>
    -- The signature is checked last, on the plaintext.
    constructor
    · intro h
      exact h _ (List.mem_cons_of_mem _ (List.mem_singleton_self _))
    · intro h
      have hdecrypts :=
        Job.verdict_of_decrypts (j := job ring ⟨header, .nvidiaRsa⟩ .aesCbcDecrypt) rfl
      exact List.forall_mem_cons.mpr ⟨hdecrypts _, List.forall_mem_singleton.mpr h⟩

theorem unanimous_iff_signed {ring : KeyRing} {e : Envelope}
    (hring : e.mode = .symmetric → ring.subkeys = .ofSlot ring.keys.cmac) (payload : Bytes) :
    Unanimous (e.strands ring payload) ↔ e.Signed ring.keys payload := by
  rw [unanimous_iff_verifier, Job.verdict_eq_ok_iff (e.verifies_verifier ring), Job.tag,
    expected_verifier, keyBytes_verifier hring]
  rfl

end Envelope

/-! ### The check of an image -/

/-- The bytes begin with the header of the envelope, which leaves room for the payload, resolves to
the mode and selects a key that exists. -/
structure Envelope.Opens (source : ModeSource) (permitted : ModeSet) (room : Nat) (image : Bytes)
    (e : Envelope) : Prop where
  announced : Header.Announced image
  header : image.take Header.size = e.header.bytes
  fits : e.size ≤ room
  resolves : resolve e.header.signingWord source permitted = .ok e.mode
  hasKey : e.HasKey

/-- What an image is held against. -/
structure Rules where
  source : ModeSource
  permitted : ModeSet
  keys : KeyTable
  policy : NvidiaPolicy
  /-- Bytes that the destination has room for. -/
  capacity : Nat

/-- The check of an image as a whole. It is either one envelope, whose plaintext does not begin as a
header does, or two envelopes, the inner one at the start of the plaintext of the outer one. -/
inductive Rules.Accepts (rules : Rules) (image : Bytes) : Prop where
  | single {e : Envelope} (opens : e.Opens rules.source rules.permitted rules.capacity image)
      (complete : Header.size + e.size ≤ image.length)
      (signed : e.Signed rules.keys (e.payload image))
      (bare : ¬ Header.Announced (e.plain rules.keys (e.payload image)))
      (met : rules.policy.isMet [decide (e.mode = .nvidiaRsa)] = true)
  | nested {e i : Envelope} (opens : e.Opens rules.source rules.permitted rules.capacity image)
      (complete : Header.size + e.size ≤ image.length)
      (signed : e.Signed rules.keys (e.payload image))
      (inner : i.Opens rules.source (rules.permitted.inside e.mode) (e.size - Header.size)
        (e.plain rules.keys (e.payload image)))
      (innerSigned : i.Signed rules.keys (i.payload (e.plain rules.keys (e.payload image))))
      (met : rules.policy.isMet
        [decide (e.mode = .nvidiaRsa), decide (i.mode = .nvidiaRsa)] = true)

/-- The rules that a session starts with, under the NVIDIA signatures that are required. -/
def Opening.rules (o : Opening) (policy : NvidiaPolicy) : Rules :=
  ⟨o.source, o.permitted, o.ring.keys, policy, o.dest.length⟩

namespace Opening

variable {o : Opening} {policy : NvidiaPolicy} {image : Bytes}

theorem opens_iff (limit : SizeLimit) {permitted : ModeSet} {e : Envelope} :
    e.Opens o.source permitted limit.bytes image ↔
      Header.parse image limit = .ok (some e.header) ∧ o.classify permitted e.header = .ok e := by
  rw [Header.parse_eq_some_iff, classify_eq_ok_iff]
  constructor
  · rintro ⟨hannounced, hheader, hfits, hresolves, hkey⟩
    exact ⟨⟨hannounced, hheader, hfits⟩, hresolves, rfl, hkey⟩
  · rintro ⟨⟨hannounced, hheader, hfits⟩, hresolves, -, hkey⟩
    exact ⟨hannounced, hheader, hfits, hresolves, hkey⟩

theorem outer_eq_ok_iff_opens {e : Envelope} :
    o.outer image = .ok e ↔ e.Opens o.source o.permitted o.dest.length image :=
  outer_eq_ok_iff.trans (opens_iff (.capacity o.dest.length)).symm

/-- What the judgement on an image comes down to, once its outline is known. -/
theorem judgement_ok_iff_of_outline {outline : Outline} (h : o.outline image = .ok outline)
    (hring : outline.outer.mode = .symmetric → o.ring.subkeys = .ofSlot o.ring.keys.cmac) :
    (∃ v, o.judgement policy image = .ok v) ↔
      Header.size + outline.outer.size ≤ image.length ∧ policy.isMet outline.signed ∧
        outline.outer.Signed o.ring.keys (outline.outer.payload image) ∧
        Unanimous
          (outline.innerStrands o.ring (outline.within o.ring (outline.outer.payload image))) := by
  obtain ⟨houter, -⟩ := outline_eq_ok_iff.mp h
  have hcomplete := outline.outer.size_le_length_payload_iff (length_of_outer_eq_ok houter).1
  rw [← hcomplete, ← Envelope.unanimous_iff_signed hring, ← unanimous_append]
  have hstrands := strands_of_outline h
  constructor
  · rintro ⟨v, hv⟩
    obtain ⟨outline', houtline', hfull, ⟨hmet, hall⟩, -⟩ := judgement_eq_ok_iff.mp hv
    obtain rfl := Except.ok.inj (h.symm.trans houtline')
    rw [hstrands] at hall
    exact ⟨hfull, hmet, hall⟩
  · rintro ⟨hfull, hmet, hall⟩
    refine ⟨_, judgement_eq_ok_iff.mpr ⟨outline, h, hfull, ⟨hmet, ?_⟩, rfl⟩⟩
    rw [hstrands]
    exact hall

/-- **The judgement is the check of the image**: a session that works with the sub-keys of its CMAC
slot finds authentic what the rules accept. -/
theorem judgement_ok_iff_accepts (hring : o.ring.subkeys = .ofSlot o.ring.keys.cmac) :
    (∃ v, o.judgement policy image = .ok v) ↔ (o.rules policy).Accepts image := by
  have hlong : ∀ {e : Envelope}, o.outer image = .ok e → Header.size + e.size ≤ image.length →
      ¬ (e.payload image).length < min Header.size e.size := by
    intro e houter hcomplete
    have hfull := (e.size_le_length_payload_iff (length_of_outer_eq_ok houter).1).mpr hcomplete
    exact Nat.not_lt.mpr (Nat.le_trans (Nat.min_le_right ..) hfull)
  constructor
  · rintro ⟨v, hv⟩
    obtain ⟨outline, houtline, -⟩ := judgement_eq_ok_iff.mp hv
    obtain ⟨hcomplete, hmet, hsigned, hall⟩ :=
      (judgement_ok_iff_of_outline houtline fun _ => hring).mp ⟨v, hv⟩
    obtain ⟨houter, hsettled⟩ := outline_eq_ok_iff.mp houtline
    have hopens := outer_eq_ok_iff_opens.mp houter
    cases outline with
    | undecided e =>
      exact absurd (settled_eq_undecided_iff.mp hsettled) (hlong houter hcomplete)
    | single e =>
      have hbare := (settled_eq_single_iff.mp hsettled).2
      rw [Envelope.output_eq_plain] at hbare
      exact .single hopens hcomplete hsigned hbare hmet
    | nested e i =>
      have hinner := (opens_iff _).mpr (settled_eq_nested_iff.mp hsettled).2
      rw [Envelope.output_eq_plain] at hinner
      have hinnerSigned := (Envelope.unanimous_iff_signed (fun _ => hring) _).mp hall
      rw [Outline.within, Envelope.inside, Envelope.output_eq_plain] at hinnerSigned
      exact .nested hopens hcomplete hsigned hinner hinnerSigned hmet
  · intro h
    cases h with
    | @single e opens complete signed bare met =>
      have houter := outer_eq_ok_iff_opens.mpr opens
      have hbare : ¬ Header.Announced (e.output o.ring (e.payload image)) := by
        rw [Envelope.output_eq_plain]
        exact bare
      have hsettled := settled_eq_single_iff.mpr ⟨hlong houter complete, hbare⟩
      have houtline : o.outline image = .ok (.single e) := outline_eq_ok_iff.mpr ⟨houter, hsettled⟩
      exact (judgement_ok_iff_of_outline houtline fun _ => hring).mpr
        ⟨complete, met, signed, fun _ hs => absurd hs List.not_mem_nil⟩
    | @nested e i opens complete signed inner innerSigned met =>
      have houter := outer_eq_ok_iff_opens.mpr opens
      have hinner : i.Opens o.source (o.permitted.inside e.mode) (e.size - Header.size)
          (e.output o.ring (e.payload image)) := by
        rw [Envelope.output_eq_plain]
        exact inner
      have hinnerSigned :
          i.Signed o.ring.keys ((e.inside o.ring (e.payload image)).take i.size) := by
        rw [Envelope.inside, Envelope.output_eq_plain]
        exact innerSigned
      have hsettled := settled_eq_nested_iff.mpr ⟨hlong houter complete,
        (opens_iff (.enclosing (e.size - Header.size))).mp hinner⟩
      have houtline : o.outline image = .ok (.nested e i) :=
        outline_eq_ok_iff.mpr ⟨houter, hsettled⟩
      exact (judgement_ok_iff_of_outline houtline fun _ => hring).mpr
        ⟨complete, met, signed, (Envelope.unanimous_iff_signed (fun _ => hring) _).mpr hinnerSigned⟩

end Opening

/-! ### Delivering and finalizing -/

/-- Delivering an image without faults and then finalizing comes to the judgement on it, under the
NVIDIA signatures that are required by then. -/
theorem Session.finalize_deliver_ok_iff {o : Opening} {policy : NvidiaPolicy} {t : Trace}
    {s : Session} (h : s.Awaits o policy t) (hfaults : o.board.faults = []) {first : Bytes}
    (hfirst : Header.size ≤ first.length) (rest : List Bytes) (required : NvidiaPolicy) :
    (∃ v, finalize.outcome (((deliver first rest).final s).requireNvidia required) = .ok v) ↔
      ∃ v, o.judgement required (first ++ rest.flatten) = .ok v := by
  have hensures := ensures_deliver h hfirst rest
  cases hout : (deliver first rest).outcome s with
  | ok _ =>
    have hat := (hensures.outcome_ok hout).requireNvidia required
    rw [hat.outcome_finalize hfaults]
  | error e =>
    -- A push has failed, so that the session accepts nothing more and its image is refused.
    obtain ⟨hphase, hrefused⟩ := hensures.outcome_error hout
    have hne : (((deliver first rest).final s).requireNvidia required).phase ≠ .processing := by
      change ((deliver first rest).final s).phase ≠ .processing
      rw [hphase]
      decide
    have hjudgement : o.judgement required (first ++ rest.flatten) = .error e := by
      simp only [Opening.judgement, hrefused hfaults]
    rw [outcome_finalize_invalid hne, hjudgement]
    simp only [reduceCtorEq]

namespace Authenticator

variable {chip : Chip} {fuses : FuseBank} {state : Rollback.State} {type : BinaryType}
  {dest : Bytes} {s : Session}

open Session in
/-- **The verdict is the check of the image**: on a board without faults, a session that is handed an
image in any chunks and then finalized finds it authentic exactly if the rules of its type accept
the image as a whole. -/
theorem finalize_ok_iff_accepts
    (hopen : (openSession type dest).outcome (fresh chip (.fresh fuses []) state) = .ok s)
    {first : Bytes} (hfirst : Header.size ≤ first.length) (rest : List Bytes)
    (policy : NvidiaPolicy) :
    (∃ v, finalize.outcome (((deliver first rest).final s).requireNvidia policy) = .ok v) ↔
      Rules.Accepts
        { source := s.source
          permitted := (chip.policy type).allowed
          keys := (chip.policy type).keys
          policy := policy
          capacity := dest.length } (first ++ rest.flatten) := by
  obtain ⟨hawaits, hfaults⟩ := awaits_of_openSession hopen
  obtain ⟨-, hopening, -⟩ :=
    (ensures_openSession (.refl _) rfl type dest).outcome_ok hopen
  have hring : s.opening.ring.subkeys = .ofSlot s.opening.ring.keys.cmac := by
    rw [hopening]
    rfl
  rw [finalize_deliver_ok_iff hawaits hfaults hfirst rest policy,
    Opening.judgement_ok_iff_accepts hring, Opening.rules, hopening]
  rfl

open Session in
/-- A token with the signature that it ought to have is found authentic, here in two chunks after its
header. -/
theorem finalize_ok_of_signed_token :
    let blank := Header.blank .oemRsa 32
    let half : Bytes := List.replicate 16 0
    let signature := Envelope.computed (Chip.t194.policy .rollbackToken).keys ⟨blank, .oemRsa⟩
      (half ++ half)
    let header := (blank.set .signature signature).bytes
    ∃ s, (openSession .rollbackToken (List.replicate 32 0)).outcome
        (fresh .t194 (.fresh .blank []) .disabled) = .ok s ∧
      ∃ v, finalize.outcome
        (((deliver header [half, half]).final s).requireNvidia .notRequired) = .ok v := by
  intro blank half signature header
  have hopen : (openSession .rollbackToken (List.replicate 32 0)).outcome
      (fresh .t194 (.fresh .blank []) .disabled) = .ok _ := rfl
  have hlength : header.length = Header.size := Header.length_bytes_eq _
  refine ⟨_, hopen, (finalize_ok_iff_accepts hopen (Nat.le_of_eq hlength.symm) _ _).mpr ?_⟩
  refine .single (e := ⟨blank.set .signature signature, .oemRsa⟩) ⟨?_, ?_, ?_, ?_, ?_⟩ ?_ ?_ ?_ ?_
  all_goals decide +kernel

end Authenticator

end SecureBoot
