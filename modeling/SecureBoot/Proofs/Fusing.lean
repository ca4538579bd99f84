import SecureBoot.Proofs.Bypass
import SecureBoot.Proofs.Policy

/-!
The fused mode is decided once. The boot-security-info fuses are looked at when a session is opened
for a binary that is no rollback token, as long as no such session has found out the mode that they
select, and at no other time. `Authenticator.Fusing` has one case for each thing that a request can do
about the fused mode, and `Authenticator.fusing` says that there is no other. So the mode that an
authenticator has kept is the one that an earlier session goes by (`Authenticator.fusedMode_iff`), and
every later one goes by it, too (`Authenticator.fused_mode_decided_once`).
-/

namespace SecureBoot

open Step

/-- The call looks at the field. -/
def Event.LooksAt (field : FuseField) : Event → Prop
  | .query f _ | .read f _ _ => f = field
  | _ => False

theorem Event.not_looksAt_of_isEngine {field : FuseField} {e : Event} (h : e.isEngine) :
    ¬ e.LooksAt field := by
  cases e with
  | query | read => cases h
  | init | process | finalize | close | derive | write => exact id

theorem Event.Concerns.not_looksAt {field field' : FuseField} {e : Event} (h : e.Concerns field)
    (hne : field ≠ field') : ¬ e.LooksAt field' := by
  cases e with
  | query | read => exact fun hlooks => hne (h.symm.trans hlooks)
  | init | process | finalize | close | derive | write => exact id

/-! ### Sessions keep their source -/

theorem Session.Reaches.source_eq {s s' : Session} (hreach : s.Reaches s') :
    s'.source = s.source := by
  refine hreach.keeps (p := fun s' => s'.source = s.source) ?_ rfl
  intro s' s'' h hchange
  cases hchange <;> exact h

/-- An OEM header is authenticated in the mode that the fuses select, if that is where modes come
from. -/
theorem oemMode_of_resolve {claim : UInt32} {f : FusedMode} {permitted : ModeSet} {m : CryptoMode}
    (h : resolve claim (.fused f) permitted = .ok m) (hoem : m.isOem) : f.oemMode? = some m := by
  rcases (resolve_eq_ok_iff.mp h).2.1 with hnvidia | hselected
  · rw [hnvidia] at hoem
    cases hoem
  · exact hselected

namespace Board

/-- Reading the fused mode begins with asking for the size of the field. -/
theorem ensures_readFusedMode_query (b : Board) :
    Ensures readFusedMode b
      (fun _ b' => ∃ r u, b'.trace = b.trace ++ .query .bootSecurityInfo r :: u)
      (fun _ b' => ∃ r u, b'.trace = b.trace ++ .query .bootSecurityInfo r :: u) := by
  simp only [readFusedMode, readWord_eq, ensures_bind, ensures_get, ensures_pure]
  apply (ensures_readSized _ _ b).mono
  · rintro info b' ⟨-, -, rfl⟩
    cases FusedMode.ofFuses b.fuses.secure (UInt32.ofNat (ofLE info)) <;> exact ⟨_, _, rfl⟩
  · rintro e b' ⟨u, hfailed, rfl, -⟩
    cases hfailed <;> exact ⟨_, _, rfl⟩

end Board

theorem Rollback.Guard.counter_ne (g : Guard) : g.counter ≠ .bootSecurityInfo := by
  simp [counter]

namespace Authenticator

variable {a a' a'' : Authenticator} {type : BinaryType} {dest : Bytes}

/-! ### Leaving the fused mode alone -/

/-- Between two states of an authenticator the fused mode stays as it is, and nobody looks at the
fuses that select it. -/
structure LeavesMode (a a' : Authenticator) : Prop where
  fusedMode : a'.fusedMode = a.fusedMode
  calls : ∃ t : Trace, a'.board.trace = a.board.trace ++ t ∧
    ∀ e ∈ t, ¬ e.LooksAt .bootSecurityInfo

theorem LeavesMode.refl (a : Authenticator) : a.LeavesMode a :=
  ⟨rfl, [], (List.append_nil _).symm, fun _ he => absurd he List.not_mem_nil⟩

theorem LeavesMode.trans (h : a.LeavesMode a') (h' : a'.LeavesMode a'') : a.LeavesMode a'' := by
  obtain ⟨t, ht, hspares⟩ := h.calls
  obtain ⟨t', ht', hspares'⟩ := h'.calls
  refine ⟨h'.fusedMode.trans h.fusedMode, t ++ t', ?_,
    List.forall_mem_append.mpr ⟨hspares, hspares'⟩⟩
  rw [ht', ht, List.append_assoc]

instance : Std.Refl LeavesMode := ⟨LeavesMode.refl⟩

instance : IsTrans Authenticator LeavesMode := ⟨fun _ _ _ => LeavesMode.trans⟩

/-- Asking the engine only. -/
theorem leavesMode_of_extends (hmode : a'.fusedMode = a.fusedMode)
    (h : a.board.Extends (fun e => e.isEngine) a'.board) : a.LeavesMode a' := by
  obtain ⟨t, ht, hengine⟩ := h.calls
  exact ⟨hmode, t, ht, fun e he => Event.not_looksAt_of_isEngine (hengine e he)⟩

/-- Looking at another field. -/
theorem leavesMode_readSized {α : Type} {field : FuseField} (hfield : field ≠ .bootSecurityInfo)
    (takes : Nat → Prop) [DecidablePred takes] (f : Bytes → α) :
    Moves LeavesMode id (onBoard (f <$> Board.readSized field takes)) := by
  have hrecord : ∀ (a : Authenticator) (u : Trace), (∀ e ∈ u, e.LooksAt field) →
      a.LeavesMode (a.setBoard (a.board.recordAll u)) := by
    intro a u hu
    refine ⟨rfl, u, rfl, fun e he hinfo => hfield ?_⟩
    have hlooks := hu e he
    cases e with
    | query f r | read f size r => exact hlooks.symm.trans hinfo
    | init | process | finalize | close | derive | write => cases hlooks
  intro a
  rw [onBoard, ensures_focus, ensures_map]
  apply (Board.ensures_readSized field takes a.board).mono
  · rintro value b ⟨-, -, rfl⟩
    exact hrecord a _ (by simp [Board.readings, Event.LooksAt])
  · rintro e b ⟨u, hfailed, rfl, -⟩
    exact hrecord a u (by cases hfailed <;> simp [Event.LooksAt])

/-! ### Opening a session -/

/-- A session as it is opened. -/
def newSession (a : Authenticator) (type : BinaryType) (source : ModeSource) (dest : Bytes) :
    Session where
  platform := a.platform
  source := source
  keys := (a.chip.policy type).keys
  permitted := (a.chip.policy type).allowed
  nvidiaHeader := (a.chip.policy type).nvidiaHeader
  dest := dest
  window := ⟨dest.length, 0, 0⟩
  chain := .empty
  short := false
  phase := .awaitingHeader

section Opening

variable {good : Session → Authenticator → Prop} {bad : Error → Authenticator → Prop}

theorem ensures_openSession_iff (hdest : dest ≠ []) :
    Ensures (openSession type dest) a good bad ↔
      Ensures (modeSource type) a (fun source a' => good (a'.newSession type source dest) a') bad := by
  have hlength : dest.length ≠ 0 := fun hzero => hdest (List.eq_nil_of_length_eq_zero hzero)
  have hwindow : Window.ofCapacity dest.length = .ok ⟨dest.length, 0, 0⟩ := if_neg hlength
  have hstart : ∀ (a : Authenticator) source, Session.start a.platform source (a.chip.policy type)
      dest = .ok (a.newSession type source dest) := by
    intro a source
    simp only [Session.start, hwindow]
    rfl
  simp [openSession, ensures_require, hdest, hstart]

theorem ensures_openSession_nil :
    Ensures (openSession type []) a good bad ↔ bad .invalid a := by
  simp [openSession, ensures_require]

/-- The mode of the fuses is the one that has been kept, or it is read and kept. -/
theorem ensures_openSession_fused (htype : type ≠ .rollbackToken) (hdest : dest ≠ []) :
    Ensures (openSession type dest) a good bad ↔
      match a.fusedMode with
      | some f => good (a.newSession type (.fused f) dest) a
      | none => Ensures Board.readFusedMode a.board
          (fun f b => good (newSession (a.setBoard b) type (.fused f) dest)
            { a.setBoard b with fusedMode := some f })
          (fun e b => bad e (a.setBoard b)) := by
  rw [ensures_openSession_iff hdest]
  simp only [modeSource, decodeFuses, if_neg htype, ensures_bind, ensures_get, ensures_pure]
  cases a.fusedMode with
  | some f => rfl
  | none =>
    simp only [onBoard, ensures_bind, ensures_focus, ensures_modify, ensures_pure]
    rfl

/-- The mode of tokens is the chip's. -/
theorem ensures_openSession_chip (hdest : dest ≠ []) :
    Ensures (openSession .rollbackToken dest) a good bad ↔
      good (a.newSession .rollbackToken (.fixed a.chip.tokenMode) dest) a := by
  rw [ensures_openSession_iff hdest]
  simp [modeSource]

end Opening

theorem ensures_visit_iff {good : Visit → Authenticator → Prop} {bad : Error → Authenticator → Prop}
    {requests : List Session.Request} :
    Ensures (visit type dest requests) a good bad ↔
      Ensures (openSession type dest) a
        (fun s a' => good ⟨s, s.transcript requests⟩ (endSession (s.after requests) a')) bad := by
  simp [visit, Visit.last_eq]

/-! ### What a request does about the fused mode -/

/-- From the opening of a session to its end, only the engine is asked. -/
theorem leavesMode_endSession {s : Session} (hs : s.platform = a.platform)
    (requests : List Session.Request) : a.LeavesMode (endSession (s.after requests) a) :=
  leavesMode_of_extends rfl (extends_endSession hs (s.extends_after requests)).board

/-- The calls that opening a session makes. -/
def openingCalls (a : Authenticator) (type : BinaryType) (dest : Bytes) : Trace :=
  ((openSession type dest).final a).board.trace.drop a.board.trace.length

/-- Between two states of an authenticator a session is opened that looks at the fuses for their mode,
and only its opening does. -/
def ReadsMode (a : Authenticator) (type : BinaryType) (dest : Bytes) (a' : Authenticator) : Prop :=
  ∃ r u w, a.openingCalls type dest = .query .bootSecurityInfo r :: u ∧
    a'.board.trace = a.board.trace ++ (a.openingCalls type dest ++ w) ∧
    ∀ e ∈ w, ¬ e.LooksAt .bootSecurityInfo

/-- What a request does about the fused mode, with the answer to it. -/
inductive Fusing (a : Authenticator) : Request → Answer → Authenticator → Prop where
  /-- The mode has been kept, and the session goes by it. -/
  | recalled {type : BinaryType} {dest : Bytes} {requests : List Session.Request} {v : Visit}
      {f : FusedMode} {a' : Authenticator} (htype : type ≠ .rollbackToken) (hdest : dest ≠ [])
      (hkept : a.fusedMode = some f) (hsource : v.opened.source = .fused f) (h : a.LeavesMode a') :
      Fusing a (.session type dest requests) (.session (.ok v)) a'
  /-- The mode is read, kept, and the session goes by it. -/
  | decoded {type : BinaryType} {dest : Bytes} {requests : List Session.Request} {v : Visit}
      {f : FusedMode} {a' : Authenticator} (htype : type ≠ .rollbackToken) (hdest : dest ≠ [])
      (hnone : a.fusedMode = none) (hread : Board.readFusedMode.outcome a.board = .ok f)
      (hkept : a'.fusedMode = some f) (hsource : v.opened.source = .fused f)
      (h : a.ReadsMode type dest a') :
      Fusing a (.session type dest requests) (.session (.ok v)) a'
  /-- The mode cannot be read, and nothing is kept. -/
  | undecoded {type : BinaryType} {dest : Bytes} {requests : List Session.Request} {e : Error}
      {a' : Authenticator} (htype : type ≠ .rollbackToken) (hdest : dest ≠ [])
      (hnone : a.fusedMode = none) (hread : Board.readFusedMode.outcome a.board = .error e)
      (hnone' : a'.fusedMode = none) (h : a.ReadsMode type dest a') :
      Fusing a (.session type dest requests) (.session (.error e)) a'
  | aside {r : Request} {answer : Answer} {a' : Authenticator}
      (hrequest : ∀ type dest requests, r = .session type dest requests →
        type = .rollbackToken ∨ dest = [])
      (hanswer : ∀ v f, answer = .session (.ok v) → v.opened.source ≠ .fused f)
      (h : a.LeavesMode a') : Fusing a r answer a'

theorem fusing_session (a : Authenticator) (htype : type ≠ .rollbackToken) (hdest : dest ≠ [])
    (requests : List Session.Request) :
    a.Fusing (.session type dest requests) (.session ((visit type dest requests).outcome a))
      ((visit type dest requests).final a) := by
  refine Ensures.result (p := fun result a' =>
    a.Fusing (.session type dest requests) (.session result) a') ?_
  rw [ensures_visit_iff, ensures_openSession_fused htype hdest]
  cases hmode : a.fusedMode with
  | some f => exact .recalled htype hdest hmode rfl (leavesMode_endSession rfl requests)
  | none =>
    have hquery := Board.ensures_readFusedMode_query a.board
    -- The calls of the opening are those that read the mode.
    have hopening : ((openSession type dest).final a).board = Board.readFusedMode.final a.board := by
      refine Ensures.final
        (p := fun a' : Authenticator => a'.board = Board.readFusedMode.final a.board) ?_
      rw [ensures_openSession_fused htype hdest, hmode]
      exact (ensures_exec _ _).mono (fun _ _ h => h.2.symm) fun _ _ h => h.2.symm
    have hreads : ∀ {r u w} {a' : Authenticator},
        (Board.readFusedMode.final a.board).trace =
          a.board.trace ++ .query .bootSecurityInfo r :: u →
        a'.board.trace = (Board.readFusedMode.final a.board).trace ++ w →
        (∀ e ∈ w, ¬ e.LooksAt .bootSecurityInfo) → a.ReadsMode type dest a' := by
      intro r u w a' htrace ha' hw
      have hcalls : a.openingCalls type dest = .query .bootSecurityInfo r :: u := by
        rw [openingCalls, hopening, htrace, List.drop_left]
      refine ⟨r, u, w, hcalls, ?_, hw⟩
      rw [ha', hcalls, htrace, List.append_assoc]
    apply (ensures_exec _ _).mono
    · rintro f b ⟨hread, rfl⟩
      obtain ⟨r, u, htrace⟩ := hquery.outcome_ok hread
      obtain ⟨hkept, w, hw, hspares⟩ := leavesMode_endSession
        (a := { a.setBoard (Board.readFusedMode.final a.board) with fusedMode := some f })
        (s := newSession (a.setBoard (Board.readFusedMode.final a.board)) type (.fused f) dest)
        rfl requests
      exact .decoded htype hdest hmode hread hkept rfl (hreads htrace hw hspares)
    · rintro e b ⟨hread, rfl⟩
      obtain ⟨r, u, htrace⟩ := hquery.outcome_error hread
      refine .undecoded htype hdest hmode hread hmode (hreads htrace (List.append_nil _).symm ?_)
      exact fun _ he => absurd he List.not_mem_nil

/-- A session for a token, or one that cannot be opened, does nothing about the fused mode. -/
theorem fusing_session_aside (a : Authenticator) (haside : type = .rollbackToken ∨ dest = [])
    (requests : List Session.Request) :
    a.Fusing (.session type dest requests) (.session ((visit type dest requests).outcome a))
      ((visit type dest requests).final a) := by
  refine Ensures.result (p := fun result a' =>
    a.Fusing (.session type dest requests) (.session result) a') ?_
  have hrequest : ∀ type' dest' requests', Request.session type dest requests =
      .session type' dest' requests' → type' = .rollbackToken ∨ dest' = [] := by
    rintro _ _ _ ⟨⟩
    exact haside
  rw [ensures_visit_iff]
  by_cases hdest : dest = []
  · subst hdest
    rw [ensures_openSession_nil]
    exact .aside hrequest (by simp) (.refl a)
  · obtain rfl := haside.resolve_right hdest
    rw [ensures_openSession_chip hdest]
    refine .aside hrequest ?_ (leavesMode_endSession rfl requests)
    rintro v f ⟨⟩
    simp [newSession]

theorem leavesMode_enforceRollback (a : Authenticator) :
    a.LeavesMode (enforceRollback.final a) := by
  obtain ⟨u, hu, hcounter, -⟩ := a.enforces.calls
  refine ⟨?_, u, hu, fun e he => (hcounter e he).not_looksAt a.guard.counter_ne⟩
  rw [enforceRollback, final_focus]
  rfl

/-- A session for a token asks the engine only, from its opening on. -/
theorem moves_withSession_token {α : Type} {m : Step Session α} (hm : AsksEngine Session.board m)
    (hdest : dest ≠ []) : Moves LeavesMode id (withSession .rollbackToken dest m) := by
  intro a
  rw [withSession, ensures_bind, ensures_openSession_chip hdest, ensures_focus]
  have hend : ∀ s, a.board.Extends (fun e => e.isEngine) s.board →
      a.LeavesMode (endSession s a) := fun s hs =>
    leavesMode_of_extends rfl (hs.trans s.extends_release)
  exact (hm _).mono (fun _ => hend) fun _ => hend

theorem moves_bypassRollback (image : Bytes) : Moves LeavesMode id (bypassRollback image) := by
  refine (moves_ofExcept _).bind fun token => moves_get.bind fun a => Moves.bind ?_ fun uniqueId =>
    (moves_ofExcept _).bind fun _ => Moves.bind (moves_withSession_token ?_ (by decide)) fun _ =>
      moves_modify fun a => ?_
  · rw [Board.readUniqueId_eq, ← id_map (Board.readSized .uniqueId _)]
    exact leavesMode_readSized (by decide : FuseField.uniqueId ≠ .bootSecurityInfo) _ id
  · exact (Session.asks_push _ _).bind fun _ => Session.asks_finalize.bind fun _ => moves_pure ()
  · exact ⟨rfl, [], (List.append_nil _).symm, fun _ he => absurd he List.not_mem_nil⟩

/-- **What a request does about the fused mode** is one of these things. -/
theorem fusing (a : Authenticator) (r : Request) : a.Fusing r (a.answer r).1 (a.answer r).2 := by
  have haside : ∀ {r : Request} {answer : Answer} {a' : Authenticator},
      (∀ type dest requests, r ≠ .session type dest requests) →
      (∀ result, answer ≠ .session result) → a.LeavesMode a' → a.Fusing r answer a' := by
    intro r answer a' hr hanswer h
    exact .aside (fun _ _ _ hsession => absurd hsession (hr _ _ _))
      (fun _ _ hsession => absurd hsession (hanswer _)) h
  have hsame : ∀ a' : Authenticator, a'.fusedMode = a.fusedMode → a'.board.trace = a.board.trace →
      a.LeavesMode a' := fun a' hmode htrace =>
    ⟨hmode, [], by rw [htrace, List.append_nil], fun _ he => absurd he List.not_mem_nil⟩
  cases r with
  | checkRollback type level =>
    change a.Fusing _ (.checkRollback (a.checkRollback type level)) a
    exact haside (by simp) (by simp) (.refl a)
  | enforceRollback =>
    change a.Fusing _ (.enforceRollback (enforceRollback.outcome a)) (enforceRollback.final a)
    exact haside (by simp) (by simp) a.leavesMode_enforceRollback
  | bypassRollback image =>
    change a.Fusing _ (.bypassRollback ((bypassRollback image).outcome a))
      ((bypassRollback image).final a)
    exact haside (by simp) (by simp) ((moves_bypassRollback image).final a)
  | clearKeyCache =>
    change a.Fusing _ .clearKeyCache a.clearKeyCache
    exact haside (by simp) (by simp) (hsame _ rfl rfl)
  | replaceFuses fuses =>
    change a.Fusing _ .replaceFuses (a.replaceFuses fuses)
    exact haside (by simp) (by simp) (hsame _ rfl rfl)
  | hardwareLevel =>
    have hlevel : Moves LeavesMode id hardwareLevel := by
      refine moves_get.bind fun a' => ?_
      rw [Rollback.Guard.hardwareLevel, Board.readWord_eq, bind_pure_comp, ← comp_map]
      exact leavesMode_readSized a'.guard.counter_ne _ _
    change a.Fusing _ (.hardwareLevel (hardwareLevel.outcome a)) (hardwareLevel.final a)
    exact haside (by simp) (by simp) (hlevel.final a)
  | session type dest requests =>
    by_cases hordinary : type ≠ .rollbackToken ∧ dest ≠ []
    · exact fusing_session a hordinary.1 hordinary.2 requests
    · have hneither : type = .rollbackToken ∨ dest = [] := by
        by_cases htype : type = .rollbackToken
        · exact .inl htype
        · exact .inr (not_not.mp fun hdest => hordinary ⟨htype, hdest⟩)
      exact fusing_session_aside a hneither requests

namespace Fusing

variable {r : Request} {answer : Answer}

/-- A mode is kept because it was kept before, or because a session has been opened that goes by
it. -/
theorem fusedMode_iff (h : a.Fusing r answer a') (f : FusedMode) :
    a'.fusedMode = some f ↔
      a.fusedMode = some f ∨ ∃ v, answer = .session (.ok v) ∧ v.opened.source = .fused f := by
  have hsession : ∀ {v : Visit} {g : FusedMode}, v.opened.source = .fused g →
      ((∃ v', Answer.session (.ok v) = .session (.ok v') ∧ v'.opened.source = .fused f) ↔
        some g = some f) := by
    intro v g hsource
    constructor
    · rintro ⟨v', ⟨⟩, hsource'⟩
      exact congrArg some (ModeSource.fused.inj (hsource.symm.trans hsource'))
    · rintro ⟨⟩
      exact ⟨v, rfl, hsource⟩
  cases h with
  | recalled _ _ hkept hsource h => rw [h.fusedMode, hkept, hsession hsource, or_self]
  | decoded _ _ hnone _ hkept hsource =>
    rw [hkept, hnone, hsession hsource]
    simp
  | undecoded _ _ hnone _ hnone' =>
    rw [hnone, hnone']
    simp
  | aside _ hanswer h =>
    rw [h.fusedMode]
    refine (or_iff_left ?_).symm
    rintro ⟨v, hok, hsource⟩
    exact hanswer v f hok hsource

/-- Who looks at the fuses opens a session, and the mode has not been kept. -/
theorem looks (h : a.Fusing r answer a') {u : Trace} (hu : a'.board.trace = a.board.trace ++ u)
    {e : Event} (he : e ∈ u) (hlooks : e.LooksAt .bootSecurityInfo) :
    ∃ type dest requests, r = .session type dest requests ∧ type ≠ .rollbackToken ∧ dest ≠ [] ∧
      e ∈ a.openingCalls type dest ∧ a.fusedMode = none := by
  have hopening : ∀ {type dest}, a.ReadsMode type dest a' → e ∈ a.openingCalls type dest := by
    rintro type dest ⟨_, _, w, -, ha', hw⟩
    rw [List.append_cancel_left (hu.symm.trans ha')] at he
    exact (List.mem_append.mp he).resolve_right fun hmem => hw e hmem hlooks
  have hspared : ¬ a.LeavesMode a' := by
    rintro ⟨-, w, ha', hw⟩
    rw [List.append_cancel_left (hu.symm.trans ha')] at he
    exact hw e he hlooks
  cases h with
  | recalled _ _ _ _ h => exact absurd h hspared
  | aside _ _ h => exact absurd h hspared
  | decoded htype hdest hnone _ _ _ h =>
    exact ⟨_, _, _, rfl, htype, hdest, hopening h, hnone⟩
  | undecoded htype hdest hnone _ _ h =>
    exact ⟨_, _, _, rfl, htype, hdest, hopening h, hnone⟩

/-- A session for a binary that is no token goes by the mode that has been kept, or else by what is
read then. -/
theorem session {requests : List Session.Request}
    (h : a.Fusing (.session type dest requests) answer a') (htype : type ≠ .rollbackToken)
    (hdest : dest ≠ []) :
    (∀ f, a.fusedMode = some f →
      ∃ v, answer = .session (.ok v) ∧ v.opened.source = .fused f) ∧
    (a.fusedMode = none → a.ReadsMode type dest a' ∧
      match Board.readFusedMode.outcome a.board with
      | .ok f => ∃ v, answer = .session (.ok v) ∧ v.opened.source = .fused f
      | .error e => answer = .session (.error e)) := by
  cases h with
  | recalled _ _ hkept hsource =>
    rw [hkept]
    exact ⟨fun f hf => ⟨_, rfl, Option.some.inj hf ▸ hsource⟩, nofun⟩
  | decoded _ _ hnone hread _ hsource h =>
    rw [hnone, hread]
    exact ⟨nofun, fun _ => ⟨h, _, rfl, hsource⟩⟩
  | undecoded _ _ hnone hread _ h =>
    rw [hnone, hread]
    exact ⟨nofun, fun _ => ⟨h, rfl⟩⟩
  | aside hrequest => exact absurd (hrequest _ _ _ rfl) (by simp [htype, hdest])

end Fusing

/-! ### Flows -/

/-- The request opens a session that goes by the mode for as long as it lives: its modes come from
there, and an OEM header is authenticated in the one that the mode selects. -/
def Turn.GoesBy (t : Turn) (f : FusedMode) : Prop :=
  ∃ v, t.answer = .session (.ok v) ∧ ∀ s, v.opened.Reaches s →
    s.source = .fused f ∧
    ∀ claim m, resolve claim s.source s.permitted = .ok m → m.isOem → f.oemMode? = some m

theorem Turn.goesBy_iff {t : Turn} {f : FusedMode} :
    t.GoesBy f ↔ ∃ v, t.answer = .session (.ok v) ∧ v.opened.source = .fused f := by
  constructor
  · rintro ⟨v, hanswer, hgoes⟩
    exact ⟨v, hanswer, (hgoes v.opened .refl).1⟩
  · rintro ⟨v, hanswer, hsource⟩
    refine ⟨v, hanswer, fun s hs => ?_⟩
    have hsame : s.source = .fused f := hs.source_eq.trans hsource
    refine ⟨hsame, fun claim m hresolve => ?_⟩
    rw [hsame] at hresolve
    exact oemMode_of_resolve hresolve

theorem Turn.fusing (t : Turn) : t.before.Fusing t.request t.answer t.after :=
  t.before.fusing t.request

/-- **The mode that has been kept** in the course of a flow is the one that an earlier session goes
by. -/
theorem fusedMode_iff {requests : List Request} {earlier later : List Turn} {t : Turn}
    (hturns : a.turns requests = earlier ++ t :: later) (f : FusedMode) :
    t.before.fusedMode = some f ↔ a.fusedMode = some f ∨ ∃ u ∈ earlier, u.GoesBy f := by
  let P (past : List Turn) (a' : Authenticator) : Prop :=
    a'.fusedMode = some f ↔ a.fusedMode = some f ∨ ∃ u ∈ past, u.GoesBy f
  refine turns_induction (P := P) (by simp [P]) (fun past u hpast => ?_) hturns
  have hnext := u.fusing.fusedMode_iff f
  rw [← Turn.goesBy_iff] at hnext
  simp only [P] at hpast ⊢
  rw [hnext, hpast, or_assoc]
  simp [or_and_right, exists_or]

/-- **The fused mode is decided once.** In any flow, whatever becomes of the fuses and whichever
faults strike, the boot-security-info fuses are looked at only where a session is opened for a binary
that is no rollback token, and only if no earlier session has found out their mode. Then the fuses are
asked, whatever came of it before, and what they say there and then is what becomes of the session:
it goes by their mode, or it is not opened. As soon as there is a session that goes by a mode, all
later ones go by the same. -/
theorem fused_mode_decided_once {chip : Chip} {board : Board} {state : Rollback.State}
    {requests : List Request} {earlier later : List Turn} {t : Turn}
    (hturns : (fresh chip board state).turns requests = earlier ++ t :: later) :
    (∀ e ∈ t.calls, e.LooksAt .bootSecurityInfo →
      ∃ type dest asked, t.request = .session type dest asked ∧ type ≠ .rollbackToken ∧ dest ≠ [] ∧
        e ∈ t.before.openingCalls type dest ∧ ∀ u ∈ earlier, ∀ f, ¬ u.GoesBy f) ∧
    ∀ type dest asked, t.request = .session type dest asked → type ≠ .rollbackToken → dest ≠ [] →
      (∀ u ∈ earlier, ∀ f, u.GoesBy f → t.GoesBy f) ∧
      ((∀ u ∈ earlier, ∀ f, ¬ u.GoesBy f) →
        (∃ r, .query .bootSecurityInfo r ∈ t.calls) ∧
        match Board.readFusedMode.outcome t.before.board with
        | .ok f => t.GoesBy f
        | .error e => t.answer = .session (.error e)) := by
  have hmode : ∀ f, t.before.fusedMode = some f ↔ ∃ u ∈ earlier, u.GoesBy f := by
    intro f
    rw [fusedMode_iff hturns]
    simp [fresh]
  have hnone : t.before.fusedMode = none ↔ ∀ u ∈ earlier, ∀ f, ¬ u.GoesBy f := by
    rw [Option.eq_none_iff_forall_ne_some]
    simp only [ne_eq, hmode, not_exists, not_and]
    exact ⟨fun h u hu f => h f u hu, fun h f u hu => h u hu f⟩
  refine ⟨fun e he hlooks => ?_, fun type dest asked hrequest htype hdest => ?_⟩
  · obtain ⟨type, dest, asked, hrequest, htype, hdest, hopening, hunknown⟩ :=
      t.fusing.looks t.trace_after he hlooks
    exact ⟨type, dest, asked, hrequest, htype, hdest, hopening, hnone.mp hunknown⟩
  · have hfusing := t.fusing
    rw [hrequest] at hfusing
    obtain ⟨hrecalled, hread⟩ := hfusing.session htype hdest
    refine ⟨fun u hu f hf => Turn.goesBy_iff.mpr (hrecalled f ((hmode f).mpr ⟨u, hu, hf⟩)),
      fun hunknown => ?_⟩
    obtain ⟨⟨r, u, w, hopening, htrace, -⟩, hanswer⟩ := hread (hnone.mpr hunknown)
    refine ⟨⟨r, ?_⟩, ?_⟩
    · rw [Turn.calls_eq htrace, hopening]
      exact List.mem_append_left _ List.mem_cons_self
    · simp only [Turn.goesBy_iff]
      exact hanswer

/-- A part that has been found insecure stays so for the rest of the boot, even if its fuses now say
that it authenticates with an RSA key of the OEM's. -/
theorem fused_mode_decided_once_replaced :
    let part := fresh .t194 (.fresh { FuseBank.blank with info := some [1] } []) .disabled
    let visit := Request.session .mb1 [0] []
    let secure : FuseBank := { FuseBank.blank with secure := true, info := some [1] }
    ∃ t, (part.turns [visit, .replaceFuses secure, visit])[2]? = some t ∧
      t.before.board.fuses.Selects .oemRsa ∧ t.GoesBy .symmetric := by
  intro part visit secure
  have hturns : part.turns [visit, .replaceFuses secure, visit] =
      [⟨part, visit⟩, ⟨_, .replaceFuses secure⟩] ++ ⟨_, visit⟩ :: [] := rfl
  have hfirst : Turn.GoesBy ⟨part, visit⟩ .symmetric := Turn.goesBy_iff.mpr ⟨_, rfl, rfl⟩
  have hselects : secure.Selects .oemRsa :=
    ⟨[1], rfl, by decide, .oemRsa rfl (by decide) (by decide)⟩
  refine ⟨_, rfl, hselects, ?_⟩
  obtain ⟨-, hsessions⟩ := fused_mode_decided_once hturns
  exact (hsessions .mb1 [0] [] rfl nofun nofun).1 _ List.mem_cons_self _ hfirst

end Authenticator

end SecureBoot
