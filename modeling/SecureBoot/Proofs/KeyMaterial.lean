import SecureBoot.Proofs.Blindness
import SecureBoot.Proofs.Deriving
import SecureBoot.Proofs.Fusing

/-!
The key material of CMACs over a boot. What a session does about it depends on the headers that its
image gets chunk by chunk (`Opening.Brings`): only one that resolves to the symmetric mode takes any
(`Session.Coherent.answer_advances`), so each call about key material belongs to a request that brings
such a header (`Session.KeyedBy`). A session for a rollback token never brings one
(`Authenticator.advances_bypassRollback`).

`Authenticator.Keying` has one case for each thing that a request can do about key material. A chip sets
aside two slots for CMAC keys and the cache has room for two, so it is up to date at every turn of a flow
(`Authenticator.reflects_turns`), and no slot is derived twice in between two clearings
(`Authenticator.cmac_key_material`).
-/

namespace SecureBoot

open Step

/-! ### Headers that an image gets -/

namespace Opening

variable {o : Opening}

/-- What a chunk adds to the envelopes of an image: the outer one, if it is the first chunk, and the
inner one, as soon as it can be told that there is one. -/
inductive Brings (o : Opening) (image chunk : Bytes) : Envelope → Prop where
  | outer {e : Envelope} (himage : image = []) (houter : o.outer chunk = .ok e) :
      Brings o image chunk e
  | inner {e i : Envelope} (hnew : ∀ e i, o.outline image ≠ .ok (.nested e i))
      (houtline : o.outline (image ++ chunk) = .ok (.nested e i)) : Brings o image chunk i

theorem outline_nil (outline : Outline) : o.outline [] ≠ .ok outline := by
  intro h
  have hsize := (length_of_outer_eq_ok (outline_eq_ok_iff.mp h).1).1
  exact absurd hsize (by decide)

/-- The symmetric mode needs no public key of the OEM's. -/
theorem classify_symmetric {permitted : ModeSet} {h : Header}
    (hresolve : resolve h.signingWord o.source permitted = .ok .symmetric) :
    o.classify permitted h = .ok ⟨h, .symmetric⟩ :=
  classify_eq_ok_iff.mpr ⟨hresolve, rfl, nofun⟩

/-- No header resolves to the symmetric mode where another mode is prescribed. -/
theorem Brings.mode_ne_symmetric {only : CryptoMode} (hsource : o.source = .fixed only)
    (honly : only ≠ .symmetric) {image chunk : Bytes} {envelope : Envelope}
    (h : o.Brings image chunk envelope) : envelope.mode ≠ .symmetric := by
  have hclassified : ∀ {permitted}, o.classify permitted envelope.header = .ok envelope →
      envelope.mode ≠ .symmetric := by
    intro permitted hclassify
    have hadmits := (resolve_eq_ok_iff.mp (classify_eq_ok_iff.mp hclassify).1).2.1
    rw [hsource] at hadmits
    exact fun hmode => honly (hadmits.symm.trans hmode)
  cases h with
  | outer _ houter => exact hclassified (outer_eq_ok_iff.mp houter).2
  | inner _ houtline =>
    have hsettled := (outline_eq_ok_iff.mp houtline).2
    exact hclassified (settled_eq_nested_iff.mp hsettled).2.2

end Opening

theorem CryptoMode.aesCmac_mem_plan_iff {mode : CryptoMode} :
    .aesCmac ∈ mode.plan ↔ mode = .symmetric := by
  cases mode <;> simp [plan]

/-! ### Sessions -/

namespace Session

variable {o : Opening} {policy : NvidiaPolicy} {p : Progress} {t : Trace} {s : Session}
  {image : Bytes} {used : List KeySlot} {slot : KeySlot} {keyed : Event → Prop}

/-- What only uses operations has nothing to do with key material. -/
theorem UsesOperations.advances {α : Type} {m : Step Session α} (hm : UsesOperations m) :
    Moves (Platform.Advances used slot keyed) platform m := hm.imp fun _ _ h => h.advances

/-- Accepting a header is in order, and there is key material in it only if the header resolves to the
symmetric mode. -/
theorem ensures_accept_advances {h : Header} (hslot : s.keys.cmac ∈ used)
    (hroom : used.length ≤ SubkeyCache.capacity)
    (hkeyed : resolve h.signingWord s.source s.permitted = .ok .symmetric → ∀ e, keyed e) (start : Nat) :
    Ensures (accept h start) s
      (fun _ s' => s.platform.Advances used s.keys.cmac keyed s'.platform)
      (fun _ s' => s.platform.Advances used s.keys.cmac keyed s'.platform) := by
  refine ensures_accept_of_openContexts Platform.Uses.advances start fun mode hresolve => ?_
  refine Platform.advances_openContexts hslot hroom mode.plan fun hcmac => ?_
  rw [CryptoMode.aesCmac_mem_plan_iff] at hcmac
  exact hkeyed (hcmac ▸ hresolve)

/-- Settling what is inside is in order, and there is key material in it only if there is a header that
resolves to the symmetric mode. -/
theorem ensures_settle_advances (h : s.Shows o policy p t) (hp : p.Sound o)
    (hslot : o.ring.keys.cmac ∈ used) (hroom : used.length ≤ SubkeyCache.capacity)
    (hkeyed : ∀ e i, p.outline = .undecided e → o.settled e p.raw = .ok (.nested e i) →
      i.mode = .symmetric → ∀ e, keyed e) (hran : p.runOuter = p) :
    Ensures settle s
      (fun _ s' => s.platform.Advances used o.ring.keys.cmac keyed s'.platform)
      (fun _ s' => s.platform.Advances used o.ring.keys.cmac keyed s'.platform) := by
  refine ensures_settle_of_accept (.refl s.platform) (fun _ => .refl s.platform)
    (fun _ _ => .refl s.platform) fun l inner hchain hlong hparse => ?_
  obtain ⟨e, hout, hl⟩ := h.chain.of_undecided hchain
  obtain ⟨htells, hfront⟩ := h.front_of_undecided hp hran hout hl
  rw [htells] at hlong
  rw [hfront hlong] at hparse
  have hpermitted : s.permitted = o.permitted.inside e.mode := by
    rw [h.permitted, hout]
    rfl
  rw [← h.keys] at hslot ⊢
  refine ensures_accept_advances hslot hroom (fun hresolve => ?_) _
  rw [h.source, hpermitted] at hresolve
  have hinner := Opening.classify_symmetric hresolve
  exact hkeyed e ⟨inner, .symmetric⟩ hout
    (Opening.settled_eq_nested_iff.mpr ⟨hlong, hparse, hinner⟩) rfl

theorem ensures_pump_advances (h : s.Shows o policy p t) (hp : p.Sound o)
    (htreats : p.Treats o image) (hslot : o.ring.keys.cmac ∈ used)
    (hroom : used.length ≤ SubkeyCache.capacity)
    (hkeyed : ∀ e i, p.outline = .undecided e → o.outline image = .ok (.nested e i) →
      i.mode = .symmetric → ∀ e, keyed e) :
    Ensures pump s
      (fun _ s' => s.platform.Advances used o.ring.keys.cmac keyed s'.platform)
      (fun _ s' => s.platform.Advances used o.ring.keys.cmac keyed s'.platform) := by
  have houtline : o.outline image = o.settled p.outline.outer p.raw := by
    rw [Opening.outline_of_outer htreats.outer, htreats.raw]
  rw [pump, ensures_bind]
  refine ((ensures_runOuter h hp htreats).and (uses_runOuter.advances s)).mono ?_ fun _ _ h => h.2
  rintro _ s₁ ⟨⟨t₁, h₁⟩, hfirst⟩
  rw [ensures_bind]
  refine (ensures_settle_advances h₁ hp.runOuter hslot hroom (fun e i hout hnested => ?_) rfl).mono
    (fun _ s₂ hsecond => ?_) fun _ _ => hfirst.trans
  · refine hkeyed e i hout (houtline.trans ?_)
    have he : p.outline.outer = e := congrArg Outline.outer hout
    rwa [he]
  · have hlast : UsesOperations (do runInner; commit) := uses_runInner.bind fun _ => uses_commit
    exact (hlast.advances s₂).mono (fun _ _ => (hfirst.trans hsecond).trans) fun _ _ =>
      (hfirst.trans hsecond).trans

theorem ensures_consume_advances (h : s.Shows o policy p t) (hp : p.Sound o) {chunk : Bytes}
    (htreats : (p.take (chunk.take (p.outline.outer.size - p.raw.length))).Treats o image)
    (hslot : o.ring.keys.cmac ∈ used) (hroom : used.length ≤ SubkeyCache.capacity)
    (hkeyed : ∀ e i, p.outline = .undecided e → o.outline image = .ok (.nested e i) →
      i.mode = .symmetric → ∀ e, keyed e) :
    Ensures (consume chunk) s
      (fun _ s' => s.platform.Advances used o.ring.keys.cmac keyed s'.platform)
      (fun _ s' => s.platform.Advances used o.ring.keys.cmac keyed s'.platform) := by
  refine h.ensures_consume_of_pump hp fun s' hplatform hp' h' => ?_
  rw [← hplatform]
  exact ensures_pump_advances h' hp' htreats hslot hroom hkeyed

/-- The first chunk brings an outer header, and perhaps an inner one. -/
theorem ensures_pushFirst_advances (h : s.Awaits o policy t) {chunk : Bytes}
    (hslot : o.ring.keys.cmac ∈ used) (hroom : used.length ≤ SubkeyCache.capacity)
    (hkeyed : ∀ e, o.Brings [] chunk e → e.mode = .symmetric → ∀ e, keyed e) :
    Ensures (pushFirst chunk) s
      (fun _ s' => s.platform.Advances used o.ring.keys.cmac keyed s'.platform)
      (fun _ s' => s.platform.Advances used o.ring.keys.cmac keyed s'.platform) := by
  have hcapacity : s.window.capacity = o.dest.length := congrArg Window.capacity h.window
  simp only [pushFirst, ensures_bind, ensures_get, hcapacity]
  cases hfound : Header.parse chunk (.capacity o.dest.length) with
  | error err => exact .refl s.platform
  | ok found =>
    cases found with
    | none => exact .refl s.platform
    | some header =>
      simp only [ensures_bind, ensures_ofExcept_ok, ensures_modify]
      cases hc : o.classify s.permitted header with
      | error err =>
        refine (ensures_accept_error h.toRooted hc _).mono (fun _ _ hnever => hnever.elim) ?_
        rintro _ s' ⟨-, rfl⟩
        exact .refl s'.platform
      | ok e =>
        obtain ⟨hresolve, rfl, -⟩ := Opening.classify_eq_ok_iff.mp hc
        have houter : o.outer chunk = .ok e :=
          Opening.outer_eq_ok_iff.mpr ⟨hfound, h.permitted ▸ hc⟩
        have hsymmetric : resolve e.header.signingWord s.source s.permitted = .ok .symmetric →
            ∀ e, keyed e := by
          intro hmode
          rw [h.source, hresolve] at hmode
          exact hkeyed e (.outer rfl houter) (Except.ok.inj hmode)
        have haccept := ensures_accept_advances (h.keys ▸ hslot) hroom hsymmetric 0
        rw [h.keys] at haccept
        refine ((ensures_accept h.toRooted hc 0).and haccept).mono ?_ fun _ _ hbad => hbad.2
        rintro l s₁ ⟨⟨platform, u, rfl, hrooted, hl, hops, -⟩, hfirst⟩
        refine (ensures_consume_advances (h.shows hrooted hl hops _)
          (Progress.sound_of_outer houter) ⟨houter, rfl⟩ hslot hroom fun _ i _ hnested => ?_).mono
          (fun _ _ => hfirst.trans) fun _ _ => hfirst.trans
        exact hkeyed i (.inner (fun _ _ => Opening.outline_nil _) hnested)

namespace Coherent

/-- **A push** is in order, and there is key material in it only if it brings a header that resolves to
the symmetric mode. -/
theorem push_advances (h : s.Coherent o image) (chunk : Bytes) (first : Bool)
    (hslot : o.ring.keys.cmac ∈ used) (hroom : used.length ≤ SubkeyCache.capacity)
    (hkeyed : ∀ e, o.Brings image chunk e → e.mode = .symmetric → ∀ e, keyed e) :
    Ensures (Session.push chunk first) s
      (fun _ s' => s.platform.Advances used o.ring.keys.cmac keyed s'.platform)
      (fun _ s' => s.platform.Advances used o.ring.keys.cmac keyed s'.platform) := by
  refine h.push_cases chunk first ?_ ?_ (.refl s.platform)
  · rintro policy t hawaits rfl
    simp only [Session.push, ensures_onError, ensures_bind, ensures_get, hawaits.phase]
    exact ensures_pushFirst_advances hawaits hslot hroom hkeyed
  · rintro policy ⟨outline, t, houtline, hp, hshows, -⟩
    have houter := (Opening.outline_eq_ok_iff.mp houtline).1
    have hlength := (Opening.length_of_outer_eq_ok houter).1
    have hpayload := outline.outer.payload_append hlength chunk
    simp only [Session.push, ensures_onError, ensures_bind, ensures_get, hshows.phase]
    refine ensures_consume_advances hshows hp
      ⟨(Opening.outer_append hlength chunk).trans houter, hpayload.symm⟩ hslot hroom ?_
    intro e i hout hnested
    refine hkeyed i (.inner (fun e' i' hbefore => ?_) hnested)
    obtain rfl : outline = .undecided e := hout
    cases houtline.symm.trans hbefore

/-- **Whatever is asked of a session** is in order, and there is key material in it only if it brings a
header that resolves to the symmetric mode. -/
theorem answer_advances (h : s.Coherent o image) (r : Request) (hslot : o.ring.keys.cmac ∈ used)
    (hroom : used.length ≤ SubkeyCache.capacity) :
    s.platform.Advances used o.ring.keys.cmac
      (fun _ => ∃ envelope, o.Brings image r.chunk envelope ∧ envelope.mode = .symmetric)
      (s.answer r).2.platform := by
  cases r with
  | push chunk first =>
    exact (h.push_advances chunk first hslot hroom fun envelope hbrings hmode _ =>
      ⟨envelope, hbrings, hmode⟩).final
  | requireNvidia policy => exact .refl s.platform
  | finalize => exact uses_finalize.advances.final s

end Coherent

/-- The call is made for one of the requests, which brings a header that resolves to the symmetric
mode. -/
def KeyedBy (s : Session) (asked : List Request) (e : Event) : Prop :=
  ∃ before r after, asked = before ++ r :: after ∧ e ∈ (s.after before).callsFor r ∧
    ∃ envelope, s.opening.Brings (pushed before) r.chunk envelope ∧ envelope.mode = .symmetric

/-- All that is asked of a session is in order, too. -/
theorem Coherent.after_advances (h : s.Coherent o image) (asked : List Request)
    (hslot : o.ring.keys.cmac ∈ used) (hroom : used.length ≤ SubkeyCache.capacity) :
    s.platform.Advances used o.ring.keys.cmac
      (fun e => ∃ before r after, asked = before ++ r :: after ∧ e ∈ (s.after before).callsFor r ∧
        ∃ envelope, o.Brings (image ++ pushed before) r.chunk envelope ∧ envelope.mode = .symmetric)
      (s.after asked).platform := by
  induction asked generalizing s image with
  | nil => exact .refl s.platform
  | cons r rest ih =>
    refine ((h.answer_advances r hslot hroom).mono fun u hu e he hbrings => ?_).trans
      ((ih (h.answer r)).mono fun _ _ e _ hlater => ?_)
    · have hcalls : s.callsFor r = u := by rw [callsFor, hu, List.drop_left]
      have himage : image ++ pushed [] = image := List.append_nil image
      refine ⟨[], r, rest, rfl, ?_, ?_⟩
      · rwa [after_nil, hcalls]
      · rwa [himage]
    · obtain ⟨before, r', after, rfl, hmem, hbrings⟩ := hlater
      refine ⟨r :: before, r', after, rfl, hmem, ?_⟩
      rwa [List.append_assoc] at hbrings

end Session

/-! ### Authenticators -/

namespace Chip

/-- The slots that a chip sets aside for CMAC keys. -/
def cmacSlots (chip : Chip) : List KeySlot := [chip.bootKeys.cmac, chip.lateKeys.cmac]

theorem cmac_mem_cmacSlots (chip : Chip) (type : BinaryType) :
    (chip.policy type).keys.cmac ∈ chip.cmacSlots := by
  cases chip <;> cases type <;> decide

/-- The cache has room for all of them. -/
theorem length_cmacSlots_le (chip : Chip) : chip.cmacSlots.length ≤ SubkeyCache.capacity :=
  Nat.le_refl 2

theorem tokenMode_ne_symmetric (chip : Chip) : chip.tokenMode ≠ .symmetric := by
  cases chip <;> decide

end Chip

namespace Authenticator

variable {a a' a'' : Authenticator} {type : BinaryType} {dest : Bytes} {keyed : Event → Prop}

/-- The calls between two states of an authenticator are in order for the slot of a type of binary. -/
structure Advances (type : BinaryType) (keyed : Event → Prop) (a a' : Authenticator) : Prop where
  chip : a'.chip = a.chip
  platform : a.platform.Advances a.chip.cmacSlots (a.chip.policy type).keys.cmac keyed a'.platform

theorem Advances.refl (a : Authenticator) : a.Advances type keyed a := ⟨rfl, .refl a.platform⟩

theorem Advances.trans (h : a.Advances type keyed a') (h' : a'.Advances type keyed a'') :
    a.Advances type keyed a'' := by
  have hplatform := h'.platform
  rw [h.chip] at hplatform
  exact ⟨h'.chip.trans h.chip, h.platform.trans hplatform⟩

instance : Std.Refl (Advances type keyed) := ⟨Advances.refl⟩

instance : IsTrans Authenticator (Advances type keyed) := ⟨fun _ _ _ => Advances.trans⟩

/-- Looking at fuses has nothing to do with key material. -/
theorem advances_onBoard {α : Type} {m : Step Board α} (hm : AsksFuses id m) :
    Moves (Advances type keyed) id (onBoard m) := by
  refine hm.focus fun a b hlook => ⟨rfl, ?_⟩
  obtain ⟨u, hu, hlooks⟩ := hlook.calls
  exact Platform.advances_of_calls rfl hu fun e he => Event.not_isKeyed_of_isLook (hlooks e he)

theorem advances_openSession (type type' : BinaryType) (dest : Bytes) :
    Moves (Advances type keyed) id (openSession type' dest) := by
  have hsource : Moves (Advances type keyed) id (modeSource type') :=
    moves_modeSource (advances_onBoard Board.asks_readFusedMode)
      (fun a _ => ⟨rfl, .refl a.platform⟩) type'
  exact (moves_require _ _).bind fun _ => hsource.bind fun _ => moves_get.bind fun _ =>
    moves_ofExcept _

/-- From the opening of a session to its end everything is in order for the slot of its type. -/
theorem ensures_visit_advances (a : Authenticator) (type : BinaryType) (dest : Bytes)
    (asked : List Session.Request) :
    Ensures (visit type dest asked) a
      (fun v a' => a.Advances type (v.opened.KeyedBy asked) a')
      (fun _ a' => a.Advances type (fun _ => False) a') := by
  rw [ensures_visit_iff]
  refine ((advances_openSession type type dest a).and ((ensures_openSession (.refl a.board) rfl type
    dest).and (ensures_exec _ a))).mono ?_ fun _ _ h => h.1
  rintro s a' ⟨hopen, ⟨hplatform, hopening, -⟩, hok, -⟩
  have hkeys : s.keys = (a.chip.policy type).keys := congrArg (fun o : Opening => o.ring.keys) hopening
  have hcoherent : s.Coherent s.opening [] := .awaiting (awaits_of_openSession hok).1 rfl
  have hslot : s.keys.cmac ∈ a.chip.cmacSlots := hkeys ▸ a.chip.cmac_mem_cmacSlots type
  have hafter : s.platform.Advances a.chip.cmacSlots s.keys.cmac (s.KeyedBy asked)
      (s.after asked).platform := hcoherent.after_advances asked hslot a.chip.length_cmacSlots_le
  have hend := hafter.trans (s.after asked).uses_release.advances
  rw [hplatform, hkeys] at hend
  refine ⟨hopen.chip, ?_⟩
  exact (hopen.platform.mono fun _ _ _ _ hnever => hnever.elim).trans hend

/-! ### Rollback tokens -/

/-- The session for a token has nothing to do with key material. -/
theorem ensures_withSession_token_advances (a : Authenticator) (image : Bytes) :
    Ensures (withSession .rollbackToken (List.replicate Rollback.Token.size 0) do
        Session.push (image.take tokenImageSize) true
        let _ ← Session.finalize) a
      (fun _ a' => a.Advances .rollbackToken (fun _ => False) a')
      (fun _ a' => a.Advances .rollbackToken (fun _ => False) a') := by
  have hopen : (openSession .rollbackToken (List.replicate Rollback.Token.size 0)).outcome a =
      .ok a.tokenSession := rfl
  have hcoherent : a.tokenSession.Coherent a.tokenSession.opening [] :=
    .awaiting (awaits_of_openSession hopen).1 rfl
  have hnever : ∀ envelope, a.tokenSession.opening.Brings [] (image.take tokenImageSize) envelope →
      envelope.mode = .symmetric → ∀ _ : Event, False := fun envelope hbrings hmode _ =>
    hbrings.mode_ne_symmetric rfl a.chip.tokenMode_ne_symmetric hmode
  have hpush := hcoherent.push_advances (image.take tokenImageSize) true
    (a.chip.cmac_mem_cmacSlots .rollbackToken) a.chip.length_cmacSlots_le hnever
  have hend : ∀ s : Session, a.platform.Advances a.chip.cmacSlots
      (a.chip.policy .rollbackToken).keys.cmac (fun _ => False) s.platform →
      a.Advances .rollbackToken (fun _ => False) (endSession s a) := fun s hs =>
    ⟨rfl, hs.trans s.uses_release.advances⟩
  rw [withSession, ensures_bind, ensures_openSession_token, ensures_focus, ensures_bind]
  refine hpush.mono (fun _ s hs => ?_) fun _ s hs => hend s hs
  have hfinalize : Session.UsesOperations (do let _ ← Session.finalize) :=
    Session.uses_finalize.bind fun _ => moves_pure _
  exact (hfinalize.advances s).mono (fun _ s' hs' => hend s' (hs.trans hs')) fun _ s' hs' =>
    hend s' (hs.trans hs')

theorem advances_bypassRollback (image : Bytes) :
    Moves (Advances .rollbackToken fun _ => False) id (bypassRollback image) := by
  refine (moves_ofExcept _).bind fun token => moves_get.bind fun a =>
    (advances_onBoard ?_).bind fun uniqueId => (moves_ofExcept _).bind fun _ => Moves.bind ?_
      fun _ => moves_modify fun a => ⟨rfl, .refl a.platform⟩
  · exact (Board.asks_query _).bind fun size => (moves_require _ _).bind fun _ =>
      Board.asks_read _ size
  · exact fun a => ensures_withSession_token_advances a image

/-! ### Flows -/

theorem advances_enforceRollback (a : Authenticator) :
    a.Advances type keyed (enforceRollback.final a) := by
  obtain ⟨u, hu, hcounter, -⟩ := a.enforces.calls
  have hkept : (enforceRollback.final a).chip = a.chip ∧
      (enforceRollback.final a).platform.cache = a.platform.cache := by
    rw [enforceRollback, final_focus]
    exact ⟨rfl, rfl⟩
  exact ⟨hkept.1, Platform.advances_of_calls hkept.2 hu fun e he =>
    Event.not_isKeyed_of_not_isEngine (hcounter e he).not_isEngine⟩

/-- What a request does about key material, with the answer to it. -/
inductive Keying (a : Authenticator) : Request → Answer → Authenticator → Prop where
  | cleared : Keying a .clearKeyCache .clearKeyCache a.clearKeyCache
  | visited {type : BinaryType} {dest : Bytes} {asked : List Session.Request} {v : Visit}
      {a' : Authenticator} (h : a.Advances type (v.opened.KeyedBy asked) a') :
      Keying a (.session type dest asked) (.session (.ok v)) a'
  | unopened {type : BinaryType} {dest : Bytes} {asked : List Session.Request} {e : Error}
      {a' : Authenticator} (h : a.Advances type (fun _ => False) a') :
      Keying a (.session type dest asked) (.session (.error e)) a'
  /-- There is no key material in it. -/
  | aside {r : Request} {answer : Answer} {a' : Authenticator} (hclear : r ≠ .clearKeyCache)
      (hsession : ∀ type dest asked, r ≠ .session type dest asked)
      (h : a.Advances .rollbackToken (fun _ => False) a') : Keying a r answer a'

theorem keying (a : Authenticator) (r : Request) : a.Keying r (a.answer r).1 (a.answer r).2 := by
  cases r with
  | checkRollback type level => exact .aside nofun nofun (.refl a)
  | enforceRollback => exact .aside nofun nofun a.advances_enforceRollback
  | bypassRollback image => exact .aside nofun nofun ((advances_bypassRollback image).final a)
  | clearKeyCache => exact .cleared
  | replaceFuses fuses =>
    exact .aside nofun nofun ⟨rfl, Platform.advances_of_calls rfl (List.append_nil _).symm (by simp)⟩
  | hardwareLevel =>
    have hlevel : Moves (Advances .rollbackToken fun _ => False) id hardwareLevel :=
      moves_get.bind fun _ => advances_onBoard ((Board.asks_readWord _).map _)
    exact .aside nofun nofun (hlevel.final a)
  | session type dest asked =>
    apply Ensures.result (p := fun result a' =>
      a.Keying (.session type dest asked) (.session result) a')
    exact (a.ensures_visit_advances type dest asked).mono (fun _ _ => .visited) fun _ _ => .unopened

namespace Keying

variable {r : Request} {answer : Answer} {past u : Trace}

theorem chip_eq (h : a.Keying r answer a') : a'.chip = a.chip := by
  cases h with
  | cleared => rfl
  | visited h | unopened h | aside _ _ h => exact h.chip

/-- The cache stays up to date. -/
theorem reflects (h : a.Keying r answer a') (hu : a'.board.trace = a.board.trace ++ u)
    (hpast : a.platform.cache.Reflects a.chip.cmacSlots past) :
    a'.platform.cache.Reflects a.chip.cmacSlots (if r = .clearKeyCache then [] else past ++ u) := by
  cases h with
  | cleared => exact SubkeyCache.reflects_empty _
  | visited h | unopened h => exact (h.platform.reflects hu hpast).1
  | aside hclear _ h =>
    rw [if_neg hclear]
    exact (h.platform.reflects hu hpast).1

/-- Clearing the cache asks for nothing. -/
theorem calls_of_clear (h : a.Keying .clearKeyCache answer a')
    (hu : a'.board.trace = a.board.trace ++ u) : u = [] := by
  cases h with
  | cleared => exact (List.append_cancel_left ((List.append_nil _).trans hu)).symm
  | aside hclear => exact absurd rfl hclear

/-- No slot has been derived twice. -/
theorem count_le_one (h : a.Keying r answer a') (hu : a'.board.trace = a.board.trace ++ u)
    (hpast : a.platform.cache.Reflects a.chip.cmacSlots past) (slot : KeySlot) :
    (past ++ u).countP (·.derives slot) ≤ 1 := by
  by_cases hclear : r = .clearKeyCache
  · subst hclear
    rw [h.calls_of_clear hu, List.append_nil]
    exact hpast.count_le_one slot
  · have hafter := h.reflects hu hpast
    rw [if_neg hclear] at hafter
    exact hafter.count_le_one slot

/-- The calls made for a session are in order. -/
theorem session {asked : List Session.Request} (h : a.Keying (.session type dest asked) answer a')
    (hu : a'.board.trace = a.board.trace ++ u)
    (hpast : a.platform.cache.Reflects a.chip.cmacSlots past) :
    u.Justified (a.chip.policy type).keys.cmac past ∧
      ∀ e ∈ u, e.isKeyed → ∃ v, answer = .session (.ok v) ∧ v.opened.KeyedBy asked e := by
  cases h with
  | @visited _ _ _ v _ h =>
    obtain ⟨-, hjustified, hkeyed⟩ := h.platform.reflects hu hpast
    exact ⟨hjustified, fun e he hk => ⟨v, rfl, hkeyed e he hk⟩⟩
  | unopened h =>
    obtain ⟨-, hjustified, hkeyed⟩ := h.platform.reflects hu hpast
    exact ⟨hjustified, fun e he hk => (hkeyed e he hk).elim⟩
  | aside _ hsession => exact absurd rfl (hsession _ _ _)

/-- The calls made for anything else are not about key material. -/
theorem not_isKeyed (h : a.Keying r answer a') (hu : a'.board.trace = a.board.trace ++ u)
    (hsession : ∀ type dest asked, r ≠ .session type dest asked) : ∀ e ∈ u, e.isKeyed = false := by
  cases h with
  | cleared =>
    rw [calls_of_clear .cleared hu]
    exact fun _ he => absurd he List.not_mem_nil
  | visited | unopened => exact absurd rfl (hsession _ _ _)
  | aside _ _ h =>
    obtain ⟨v, hv, hkeyed, -⟩ := h.platform
    obtain rfl := List.append_cancel_left (hu.symm.trans hv)
    exact fun e he => Bool.eq_false_iff.mpr (hkeyed e he)

end Keying

namespace Turn

theorem keying (t : Turn) : t.before.Keying t.request t.answer t.after := t.before.keying t.request

/-- The calls since the cache was last cleared, after the turn, if up to it there have been those in
`past`. -/
def sinceClear (past : Trace) (t : Turn) : Trace :=
  if t.request = .clearKeyCache then [] else past ++ t.calls

end Turn

/-- The calls since the cache was last cleared. -/
def callsSinceClear (turns : List Turn) : Trace := turns.foldl Turn.sinceClear []

theorem callsSinceClear_concat (turns : List Turn) (t : Turn) :
    callsSinceClear (turns ++ [t]) = t.sinceClear (callsSinceClear turns) := by
  simp [callsSinceClear]

/-- **The cache is up to date** at every turn of a flow. -/
theorem reflects_turns {requests : List Request} {earlier later : List Turn} {t : Turn}
    (hstart : a.platform.cache = .empty) (hturns : a.turns requests = earlier ++ t :: later) :
    t.before.chip = a.chip ∧
      t.before.platform.cache.Reflects a.chip.cmacSlots (callsSinceClear earlier) := by
  let P (past : List Turn) (a' : Authenticator) : Prop :=
    a'.chip = a.chip ∧ a'.platform.cache.Reflects a.chip.cmacSlots (callsSinceClear past)
  refine turns_induction (P := P) ⟨rfl, hstart ▸ SubkeyCache.reflects_empty _⟩ ?_ hturns
  rintro past u ⟨hchip, hpast⟩
  have hsame := u.keying.chip_eq
  rw [← hchip] at hpast
  refine ⟨hsame.trans hchip, ?_⟩
  rw [callsSinceClear_concat, ← hchip]
  exact u.keying.reflects u.trace_after hpast

/-- **The key material of CMACs over a boot.** In any flow, whatever the images and the faults and in
whichever order the types of binary come, a session sets up a CMAC with the key in the slot of its type
and with the sub-keys that have been derived for that slot since the cache was last cleared. It derives
sub-keys for no other slot, and only if that has not been done since then. It does either only for a
request that brings a header which resolves to the symmetric mode. Nothing else that can be asked for has
to do with key material, a rollback token included. So no slot is derived twice without a clearing in
between, as the cache never gives up what may still be of use. -/
theorem cmac_key_material {chip : Chip} {board : Board} {state : Rollback.State}
    {requests : List Request} {earlier later : List Turn} {t : Turn}
    (hturns : (fresh chip board state).turns requests = earlier ++ t :: later) :
    let past := callsSinceClear earlier
    (∀ type dest asked, t.request = .session type dest asked →
      t.calls.Justified (chip.policy type).keys.cmac past ∧
      ∀ e ∈ t.calls, e.isKeyed →
        ∃ v, t.answer = .session (.ok v) ∧ v.opened.KeyedBy asked e) ∧
    ((∀ type dest asked, t.request ≠ .session type dest asked) →
      ∀ e ∈ t.calls, e.isKeyed = false) ∧
    ∀ slot, (past ++ t.calls).countP (·.derives slot) ≤ 1 := by
  intro past
  obtain ⟨hchip, hpast⟩ := reflects_turns rfl hturns
  obtain rfl : t.before.chip = chip := hchip
  refine ⟨fun type dest asked hrequest => ?_, t.keying.not_isKeyed t.trace_after,
    t.keying.count_le_one t.trace_after hpast⟩
  have hkeying := t.keying
  rw [hrequest] at hkeying
  exact hkeying.session t.trace_after hpast

/-- On a part out of the factory, two sessions derive what they need, and a third one for a binary of the
first type has its sub-keys from the cache. -/
theorem cmac_key_material_held :
    let image := (Header.blank .symmetric 1).bytes ++ [0]
    let visit (type : BinaryType) := Request.session type [0] [.push image true]
    let part := fresh .t194 (.fresh { FuseBank.blank with info := some [1] } []) .disabled
    ∃ earlier t, part.turns [visit .mb1, visit .kernel, visit .mb1] = earlier ++ [t] ∧
      (∀ slot ∈ [0, 4], (callsSinceClear earlier).countP (·.derives slot) = 1) ∧
      (∃ e ∈ t.calls, e.isKeyed) ∧
      t.calls.Justified 0 (callsSinceClear earlier) ∧
      ∀ slot, (callsSinceClear earlier ++ t.calls).countP (·.derives slot) ≤ 1 := by
  intro image visit part
  have hturns : part.turns [visit .mb1, visit .kernel, visit .mb1] =
      (part.turns [visit .mb1, visit .kernel]) ++
        [⟨(part.answer (visit .mb1)).2.answer (visit .kernel) |>.2, visit .mb1⟩] := rfl
  obtain ⟨hsession, -, hcount⟩ := cmac_key_material hturns
  refine ⟨_, _, hturns, by decide +kernel, by decide +kernel, ?_, hcount⟩
  exact (hsession .mb1 [0] _ rfl).1

end Authenticator

end SecureBoot
