import SecureBoot.Proofs.Reference
import SecureBoot.Proofs.Turns

/-!
Rollback-bypass tokens, which are the one way to switch rollback prevention off. A part accepts a token
image exactly if it carries a token that names the part, with a signature in the mode that the chip
prescribes (`Authenticator.AcceptsToken`). A token that is refused changes nothing about the guard,
the engine is not even asked about one that is meant for another part, and one that is accepted takes
the guard out of all that follows (`Authenticator.bypassRollback_sound`).
-/

namespace SecureBoot

open Step
open Rollback (Token tokenMagic)

/-! ### Token images -/

namespace Rollback.Token

theorem parse_eq_ok_iff {b : Bytes} {t : Token} : parse b = .ok t ↔ b = t.bytes := by
  unfold parse
  cases h : Block.ofBytes? size b with
  | none =>
    constructor
    · nofun
    · rintro rfl
      rw [Block.ofBytes?_eq_some_iff.mpr rfl] at h
      cases h
  | some block =>
    obtain rfl := Block.ofBytes?_eq_some_iff.mp h
    constructor
    · rintro ⟨⟩
      rfl
    · intro hbytes
      rw [Block.ext hbytes]

/-- No token begins as a header does. -/
theorem not_announced {t : Token} (h : t.magic = tokenMagic) : ¬ Header.Announced t.bytes := by
  have hstart : t.bytes.take 4 = tokenMagic.take 4 := by
    rw [← h, magic, Block.field, slice, List.drop_zero, List.take_take]
    rfl
  unfold Header.Announced
  rw [hstart]
  decide

end Rollback.Token

namespace Authenticator

/-- A token image that is in order and meant for the part, its signature left aside. -/
structure TokenFor (a : Authenticator) (image : Bytes) (h : Header) (t : Token) : Prop where
  length : tokenImageSize ≤ image.length
  announced : Header.Announced image
  header : image.take Header.size = h.bytes
  declares : h.length = Token.size
  body : (image.drop Header.size).take Token.size = t.bytes
  magic : t.magic = tokenMagic
  version : t.version = a.chip.tokenVersion
  device : a.board.fuses.uniqueId = some t.uniqueId

/-- A token image that the part accepts: it claims the mode that the chip prescribes, selects a key that
exists and holds the signature of its body under that key. -/
structure AcceptsToken (a : Authenticator) (image : Bytes) (h : Header) (t : Token) : Prop
    extends a.TokenFor image h t where
  claims : h.signingWord.toNat = a.chip.tokenMode.signingType.number
  key : h.keyIndex < 3
  signed : Envelope.Signed (a.chip.policy .rollbackToken).keys ⟨h, a.chip.tokenMode⟩ t.bytes

theorem parseToken_eq_ok_iff {image : Bytes} {t : Token} :
    parseToken image = .ok t ↔
      ∃ h, Header.parse image (.capacity Token.size) = .ok (some h) ∧
        (h.length = Token.size ∧ tokenImageSize ≤ image.length) ∧
        (image.drop Header.size).take Token.size = t.bytes := by
  have hbody : (image.take tokenImageSize).drop Header.size =
      (image.drop Header.size).take Token.size := List.drop_take
  unfold parseToken
  rw [hbody]
  cases Header.parse image (.capacity Token.size) with
  | error e => simp [bind, Except.bind]
  | ok found =>
    cases found with
    | none => simp [bind, Except.bind, throw, throwThe, MonadExceptOf.throw]
    | some h =>
      simp only [bind, Except.bind, Except.ok.injEq, Option.some.injEq, exists_eq_left']
      by_cases hsize : h.length = Token.size ∧ tokenImageSize ≤ image.length
      · rw [if_pos hsize, and_iff_right hsize, Token.parse_eq_ok_iff]
      · rw [if_neg hsize]
        constructor
        · nofun
        · rintro ⟨hsize', -⟩
          exact absurd hsize' hsize

/-- A token image is meant for the part if its header and its token say so. -/
theorem namesPart_iff {a : Authenticator} {image : Bytes} :
    a.NamesPart image ↔ ∃ h t, a.TokenFor image h t := by
  constructor
  · rintro ⟨t, uniqueId, hparse, hid, hcheck⟩
    obtain ⟨h, hheader, ⟨hdeclares, hlength⟩, hbody⟩ := parseToken_eq_ok_iff.mp hparse
    obtain ⟨hannounced, hbytes, -⟩ := Header.parse_eq_some_iff.mp hheader
    obtain ⟨hmagic, hversion, rfl⟩ := Token.check_eq_ok_iff.mp hcheck
    exact ⟨h, t,
      { length := hlength
        announced := hannounced
        header := hbytes
        declares := hdeclares
        body := hbody
        magic := hmagic
        version := hversion
        device := hid }⟩
  · rintro ⟨h, t, hfor⟩
    have hheader : Header.parse image (.capacity Token.size) = .ok (some h) :=
      Header.parse_eq_some_iff.mpr
        ⟨hfor.announced, hfor.header, Nat.le_of_eq hfor.declares⟩
    exact ⟨t, t.uniqueId,
      parseToken_eq_ok_iff.mpr ⟨h, hheader, ⟨hfor.declares, hfor.length⟩, hfor.body⟩, hfor.device,
      Token.check_eq_ok_iff.mpr ⟨hfor.magic, hfor.version, rfl⟩⟩

end Authenticator

/-! ### The verdict on a token image -/

namespace Authenticator.TokenFor

variable {a : Authenticator} {image : Bytes} {h : Header} {t : Token} {o : Opening}

theorem parse_start (hfor : a.TokenFor image h t) :
    Header.parse (image.take tokenImageSize) (.capacity Token.size) = .ok (some h) := by
  have hsame : Header.parse (image.take tokenImageSize) (.capacity Token.size) =
      Header.parse image (.capacity Token.size) := by
    rw [← Header.parse_take, List.take_take, Nat.min_eq_left (by decide), Header.parse_take]
  rw [hsame]
  exact Header.parse_eq_some_iff.mpr
    ⟨hfor.announced, hfor.header, Nat.le_of_eq hfor.declares⟩

theorem payload_eq (hfor : a.TokenFor image h t) (mode : CryptoMode) :
    Envelope.payload ⟨h, mode⟩ (image.take tokenImageSize) = t.bytes := by
  have hsize : Envelope.size ⟨h, mode⟩ = Token.size := hfor.declares
  rw [Envelope.payload, hsize, List.drop_take, List.take_take]
  exact hfor.body

/-- The envelope of a token image, in a session for tokens of the chip. -/
theorem outer_eq_ok_iff (hfor : a.TokenFor image h t) (hsource : o.source = .fixed a.chip.tokenMode)
    (hpermitted : o.permitted = [a.chip.tokenMode]) (hdest : o.dest.length = Token.size)
    {e : Envelope} :
    o.outer (image.take tokenImageSize) = .ok e ↔
      e = ⟨h, a.chip.tokenMode⟩ ∧ h.signingWord.toNat = a.chip.tokenMode.signingType.number ∧
        h.keyIndex < 3 := by
  have hkey : Envelope.HasKey ⟨h, a.chip.tokenMode⟩ ↔ h.keyIndex < 3 := by
    have huses : a.chip.tokenMode.usesOemKey = true := by
      cases a.chip <;> rfl
    exact imp_iff_right huses
  rw [Opening.outer_eq_ok_iff, hdest, hfor.parse_start, Opening.classify_eq_ok_iff, resolve_eq_ok_iff,
    hsource, hpermitted]
  constructor
  · rintro ⟨hparse, ⟨hclaims, hmode, -⟩, -, hhas⟩
    obtain ⟨header, mode⟩ := e
    cases hmode
    cases hparse
    exact ⟨rfl, hclaims, hkey.mp hhas⟩
  · rintro ⟨rfl, hclaims, hbelow⟩
    exact ⟨rfl, ⟨hclaims, rfl, List.mem_singleton_self _⟩, rfl, hkey.mpr hbelow⟩

/-- Nothing is nested in a token. -/
theorem settled_eq (hfor : a.TokenFor image h t) :
    o.settled ⟨h, a.chip.tokenMode⟩
      (Envelope.payload ⟨h, a.chip.tokenMode⟩ (image.take tokenImageSize)) =
        .ok (.single ⟨h, a.chip.tokenMode⟩) := by
  have hplain : Envelope.plain o.ring.keys ⟨h, a.chip.tokenMode⟩ t.bytes = t.bytes := by
    cases a.chip <;> rfl
  rw [hfor.payload_eq, Opening.settled_eq_single_iff, Envelope.output_eq_plain, hplain]
  constructor
  · have hlength : t.bytes.length = Token.size := t.length_bytes
    rw [hlength]
    exact Nat.not_lt.mpr (Nat.le_trans (Nat.min_le_right ..) (Nat.le_of_eq hfor.declares))
  · exact Token.not_announced hfor.magic

/-- **The verdict on a token image** that is meant for the part is that on its claim, its key and its
signature. -/
theorem judgement_ok_iff (hfor : a.TokenFor image h t) (hsource : o.source = .fixed a.chip.tokenMode)
    (hpermitted : o.permitted = [a.chip.tokenMode]) (hdest : o.dest.length = Token.size)
    (hkeys : o.ring.keys = (a.chip.policy .rollbackToken).keys) :
    (∃ v, o.judgement .notRequired (image.take tokenImageSize) = .ok v) ↔
      a.AcceptsToken image h t := by
  have hring : a.chip.tokenMode = .symmetric → o.ring.subkeys = .ofSlot o.ring.keys.cmac := by
    cases a.chip <;> nofun
  have houter := @outer_eq_ok_iff a image h t o hfor hsource hpermitted hdest
  constructor
  · rintro ⟨v, hv⟩
    obtain ⟨outline, houtline, -⟩ := Opening.judgement_eq_ok_iff.mp hv
    obtain ⟨hfirst, hsettled⟩ := Opening.outline_eq_ok_iff.mp houtline
    obtain ⟨he, hclaims, hkey⟩ := houter.mp hfirst
    rw [he] at hsettled
    obtain rfl := Except.ok.inj (hsettled.symm.trans hfor.settled_eq)
    obtain ⟨-, -, hsigned, -⟩ := (Opening.judgement_ok_iff_of_outline houtline hring).mp ⟨v, hv⟩
    rw [hkeys] at hsigned
    exact ⟨hfor, hclaims, hkey, (hfor.payload_eq a.chip.tokenMode) ▸ hsigned⟩
  · intro haccepts
    have houtline : o.outline (image.take tokenImageSize) = .ok (.single ⟨h, a.chip.tokenMode⟩) :=
      Opening.outline_eq_ok_iff.mpr
        ⟨houter.mpr ⟨rfl, haccepts.claims, haccepts.key⟩, hfor.settled_eq⟩
    refine (Opening.judgement_ok_iff_of_outline houtline hring).mpr ⟨?_, rfl, ?_, nofun⟩
    · change Header.size + h.length ≤ _
      rw [hfor.declares, List.length_take]
      exact Nat.le_min.mpr ⟨Nat.le_refl _, hfor.length⟩
    · change Envelope.Signed _ _ (Envelope.payload ⟨h, a.chip.tokenMode⟩ _)
      rw [hkeys, hfor.payload_eq]
      exact haccepts.signed

end Authenticator.TokenFor

/-! ### The session for a token -/

namespace Session

/-- Without faults a session that is handed an image in one chunk and finalized comes to the verdict on
it. -/
theorem ensures_push_finalize {o : Opening} {policy : NvidiaPolicy} {t : Trace} {s : Session}
    (h : s.Awaits o policy t) (hfaults : o.board.faults = []) (image : Bytes) :
    Ensures (do push image true; let _ ← finalize) s
      (fun _ _ => ∃ v, o.judgement policy image = .ok v)
      (fun _ _ => ¬ ∃ v, o.judgement policy image = .ok v) := by
  have hfailed : ∀ {e}, o.judgement policy image = .error e →
      ¬ ∃ v, o.judgement policy image = .ok v := by
    rintro e herror ⟨v, hv⟩
    cases herror.symm.trans hv
  simp only [ensures_bind, ensures_pure]
  apply (ensures_push_first h image).mono
  · intro _ s' hat
    apply (ensures_finalize hat).mono
    · rintro v _ ⟨hverdict, -⟩
      exact ⟨v, hverdict⟩
    · rintro e _ ⟨hverdict, -⟩
      exact hfailed (hverdict hfaults)
  · rintro e s' ⟨⟨-, hrefused⟩, -⟩
    apply hfailed (e := e)
    simp only [Opening.judgement, hrefused hfaults]

end Session

namespace Authenticator

/-- The session in which a token is checked. Its mode is fixed, so opening it asks for no fuse. -/
def tokenSession (a : Authenticator) : Session where
  platform := a.platform
  source := .fixed a.chip.tokenMode
  keys := (a.chip.policy .rollbackToken).keys
  permitted := [a.chip.tokenMode]
  nvidiaHeader := .notRequired
  dest := List.replicate Token.size 0
  window := ⟨Token.size, 0, 0⟩
  chain := .empty
  short := false
  phase := .awaitingHeader

theorem ensures_openSession_token {a : Authenticator} {good : Session → Authenticator → Prop}
    {bad : Error → Authenticator → Prop} :
    Ensures (openSession .rollbackToken (List.replicate Token.size 0)) a good bad ↔
      good a.tokenSession a := Iff.rfl

theorem ensures_withSession_token (a : Authenticator) (image : Bytes)
    (hfaults : a.board.faults = []) :
    Ensures (withSession .rollbackToken (List.replicate Token.size 0) do
        Session.push (image.take tokenImageSize) true
        let _ ← Session.finalize) a
      (fun _ _ => ∃ v, a.tokenSession.opening.judgement .notRequired (image.take tokenImageSize) =
        .ok v)
      (fun _ _ => ¬ ∃ v, a.tokenSession.opening.judgement .notRequired
        (image.take tokenImageSize) = .ok v) := by
  have hopen : (openSession .rollbackToken (List.replicate Token.size 0)).outcome a =
      .ok a.tokenSession := rfl
  have hsession := Session.ensures_push_finalize (awaits_of_openSession hopen).1 hfaults
    (image.take tokenImageSize)
  rw [withSession, ensures_bind, ensures_openSession_token, ensures_focus]
  exact hsession

/-- **Without faults** a part accepts the token images that it ought to accept. -/
theorem ensures_bypassRollback_accepts {a : Authenticator} (hfaults : a.board.faults = [])
    (image : Bytes) :
    Ensures (bypassRollback image) a (fun _ _ => ∃ h t, a.AcceptsToken image h t)
      (fun _ _ => ¬ ∃ h t, a.AcceptsToken image h t) := by
  have hnames : ∀ {h t}, a.AcceptsToken image h t → a.NamesPart image := fun haccepts =>
    namesPart_iff.mpr ⟨_, _, haccepts.toTokenFor⟩
  simp only [bypassRollback, ensures_bind, ensures_get, ensures_modify]
  cases hparse : parseToken image with
  | error e =>
    rintro ⟨h, t, haccepts⟩
    obtain ⟨t', -, hok, -⟩ := hnames haccepts
    cases hparse.symm.trans hok
  | ok token =>
    simp only [ensures_ofExcept_ok, onBoard, ensures_focus, Board.readUniqueId_eq]
    apply (Board.ensures_readSized _ _ a.board).mono
    · rintro uniqueId b ⟨hid, -, rfl⟩
      cases hcheck : token.check a.chip.tokenVersion uniqueId with
      | error e =>
        rintro ⟨h, t, haccepts⟩
        obtain ⟨t', uniqueId', hok, hid', hcheck'⟩ := hnames haccepts
        cases hparse.symm.trans hok
        cases hid.symm.trans hid'
        cases hcheck.symm.trans hcheck'
      | ok =>
        rw [ensures_ofExcept_ok]
        obtain ⟨h, t, hfor⟩ := namesPart_iff.mp ⟨token, uniqueId, hparse, hid, hcheck⟩
        have hsession := ensures_withSession_token
          (setBoard (a.board.recordAll (Board.readings .uniqueId uniqueId)) a) image hfaults
        apply hsession.mono
        · intro _ _ hverdict
          exact ⟨h, t, (hfor.judgement_ok_iff rfl rfl rfl rfl).mp hverdict⟩
        · rintro _ _ hverdict ⟨h', t', haccepts⟩
          exact hverdict
            ((haccepts.toTokenFor.judgement_ok_iff rfl rfl rfl rfl).mpr haccepts)
    · rintro e b ⟨u, -, -, hunread⟩ ⟨h, t, haccepts⟩
      refine hunread hfaults t.uniqueId haccepts.device ?_
      simp [Token.uniqueId, Block.field]

theorem bypassRollback_ok_iff {a : Authenticator} (hfaults : a.board.faults = []) (image : Bytes) :
    (bypassRollback image).outcome a = .ok () ↔ ∃ h t, a.AcceptsToken image h t := by
  have haccepts := ensures_bypassRollback_accepts hfaults image
  constructor
  · intro hok
    exact haccepts.outcome_ok hok
  · intro h
    cases hout : (bypassRollback image).outcome a with
    | ok => rfl
    | error e => exact absurd h (haccepts.outcome_error hout)

/-! ### A guard that is off -/

/-- A request leaves the guard as it is switched, unless it is a token that is accepted. -/
theorem Serves.state_eq {a a' : Authenticator} {r : Request} {answer : Answer}
    (h : a.Serves r answer a') (hanswer : answer ≠ .bypassRollback (.ok ())) :
    a'.guard.state = a.guard.state := by
  cases h with
  | enforced h => exact h.state
  | bypassed => exact absurd rfl hanswer
  | replaced => rfl
  | aside _ _ _ h => rw [h.guard]

/-- Nothing is held against the boot in the turn: every level passes, and an enforcement lets the boot
go on without a call. -/
structure Turn.Unguarded (t : Turn) : Prop where
  check : ∀ type level, t.request = .checkRollback type level → t.answer = .checkRollback (.ok ())
  enforce : t.request = .enforceRollback →
    t.answer = .enforceRollback (.ok .proceed) ∧ t.calls = [] ∧ t.after.guard = t.before.guard

theorem Turn.unguarded {t : Turn} (hoff : t.before.guard.state.enabled = false) : t.Unguarded := by
  constructor
  · intro type level hrequest
    rw [answer, hrequest]
    simp [Authenticator.answer, checkRollback, Rollback.Guard.check, hoff]
  · intro hrequest
    obtain ⟨result, hanswer, henforces⟩ := enforces hrequest
    obtain ⟨rfl, hguard, hboard⟩ := henforces.eq_of_disabled hoff
    refine ⟨hanswer, calls_eq ?_, hguard⟩
    rw [hboard, List.append_nil]

/-- Once off, a guard stays off. -/
theorem disabled_turns {a : Authenticator} (hoff : a.guard.state.enabled = false)
    {requests : List Request} {t : Turn} (ht : t ∈ a.turns requests) :
    t.before.guard.state.enabled = false := by
  rcases (follows_turns ht).state with hsame | hdisabled
  · rw [hsame, hoff]
  · rw [hdisabled]
    rfl

/-! ### The bypass -/

/-- **Tokens are sound and atomic.** Without faults a part accepts exactly the tokens that it ought to
accept. Whichever faults strike, a token that is refused leaves the guard as it was, one that is
accepted changes nothing about it but switches it off for all that follows, and the engine is asked
about a token only if that is meant for the part. In no flow does anything else switch a guard. -/
theorem bypassRollback_sound (a : Authenticator) (image : Bytes) :
    let t : Turn := ⟨a, .bypassRollback image⟩
    (a.board.faults = [] →
      (t.answer = .bypassRollback (.ok ()) ↔ ∃ h token, a.AcceptsToken image h token)) ∧
    (∀ e, t.answer = .bypassRollback (.error e) → t.after.guard = a.guard) ∧
    (t.answer = .bypassRollback (.ok ()) →
      t.after.guard = { a.guard with state := { a.guard.state with enabled := false } } ∧
      ∀ requests, ∀ u ∈ t.after.turns requests, u.Unguarded) ∧
    (∀ e ∈ t.calls, e.isEngine = true → ∃ h token, a.TokenFor image h token) ∧
    ∀ requests, ∀ u ∈ a.turns requests, u.answer ≠ .bypassRollback (.ok ()) →
      u.after.guard.state = u.before.guard.state := by
  intro t
  have hanswer : ∀ r, t.answer = .bypassRollback r ↔ (bypassRollback image).outcome a = r := by
    intro r
    constructor
    · exact Answer.bypassRollback.inj
    · exact congrArg Answer.bypassRollback
  have hextends := ensures_bypassRollback_extends a image
  refine ⟨?_, ?_, ?_, ?_, ?_⟩
  · intro hfaults
    rw [hanswer, bypassRollback_ok_iff hfaults]
  · intro e he
    exact (hextends.outcome_error ((hanswer _).mp he)).guard
  · intro hok
    obtain ⟨a₁, hsame, hafter⟩ := hextends.outcome_ok ((hanswer _).mp hok)
    have hguard : t.after.guard = a.guard.disable := by
      change ((bypassRollback image).final a).guard = _
      rw [hafter, ← hsame.guard]
    refine ⟨hguard, ?_⟩
    intro requests u hu
    have hoff : t.after.guard.state.enabled = false := by
      rw [hguard]
      rfl
    exact Turn.unguarded (disabled_turns hoff hu)
  · intro e he hengine
    obtain ⟨u, hu, htolerates⟩ := (extends_bypassRollback a image).calls
    have hcalls : t.calls = u := Turn.calls_eq hu
    rw [hcalls] at he
    exact namesPart_iff.mp ((htolerates e he).2 hengine)
  · intro requests u hu
    exact u.serves.state_eq

/-- A token that names the part and is signed as it ought to be is accepted. -/
theorem bypassRollback_of_signed_token :
    let blank := Header.blank .oemRsa 32
    let token := Token.make 1 (List.replicate 16 7)
    let signature :=
      Envelope.computed (Chip.t194.policy .rollbackToken).keys ⟨blank, .oemRsa⟩ token.bytes
    let image := (blank.set .signature signature).bytes ++ token.bytes
    let part := fresh .t194 (.fresh { FuseBank.blank with uniqueId := some (List.replicate 16 7) } [])
      { enabled := true, fuseIndex := 0, level := 1, floor := fun _ => 1 }
    (bypassRollback image).outcome part = .ok () ∧
      ((bypassRollback image).final part).guard.state.enabled = false := by
  intro blank token signature image part
  have haccepts : part.AcceptsToken image (blank.set .signature signature) token := by
    refine ⟨⟨?_, ?_, ?_, ?_, ?_, ?_, ?_, ?_⟩, ?_, ?_, ?_⟩
    all_goals decide +kernel
  have hfaults : part.board.faults = [] := rfl
  -- From here on it does not matter any more which bytes the image consists of.
  clear_value image
  obtain ⟨hiff, -, hok, -⟩ := bypassRollback_sound part image
  have hanswer := (hiff hfaults).mpr ⟨_, _, haccepts⟩
  have hguard := (hok hanswer).1
  refine ⟨Answer.bypassRollback.inj hanswer, ?_⟩
  exact congrArg (fun g : Rollback.Guard => g.state.enabled) hguard

end Authenticator

end SecureBoot
