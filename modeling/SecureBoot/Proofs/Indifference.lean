import SecureBoot.Proofs.Bypass
import SecureBoot.Proofs.Parallel

/-!
Rollback-bypass tokens do not depend on how a part is fused. The session for a token has the mode that
the chip prescribes, which needs no sub-keys, so the likeness `apart` leaves the sub-key cache open and
all fuses but the unique id, and is lawful. Two authenticators that agree on what a bypass may look at
(`Authenticator.FusedApart`) thus make the same calls for a token and answer the same
(`Authenticator.bypassRollback_indifferent`).
-/

namespace SecureBoot

open Step

/-! ### Calls that tell nothing of the fuses -/

/-- The call gets no sub-keys, looks at no fuse but the unique id and writes none. -/
def Event.isIndifferent : Event → Bool
  | .derive .. | .write .. => false
  | .query field _ | .read field .. => field = .uniqueId
  | .init .. | .process .. | .finalize .. | .close .. => true

namespace Board

/-- Boards with the same calls on record since they had those in `past` and `past'`, none of which
tells anything of the fuses that may differ. -/
structure Apart (past past' : Trace) (b b' : Board) : Prop where
  faults : b'.faults = b.faults
  uniqueId : b'.fuses.uniqueId = b.fuses.uniqueId
  count : ∀ call, b'.count call = b.count call
  nextId : b'.nextId = b.nextId
  trace : ∃ u : Trace, b.trace = past ++ u ∧ b'.trace = past' ++ u ∧ ∀ e ∈ u, e.isIndifferent

variable {past past' : Trace} {b b' : Board}

namespace Apart

theorem fault?_eq (h : Apart past past' b b') (call : Call) : b'.fault? call = b.fault? call := by
  rw [fault?, fault?, h.faults, h.count]

theorem record (h : Apart past past' b b') {e : Event} (he : e.isIndifferent) :
    Apart past past' (b.record e) (b'.record e) where
  faults := h.faults
  uniqueId := h.uniqueId
  count := fun call => by
    have hcount := h.count call
    simp only [Board.count, trace_record, List.countP_append] at hcount ⊢
    rw [hcount]
  nextId := by
    have hnext := h.nextId
    simp only [Board.nextId, trace_record, List.countP_append] at hnext ⊢
    rw [hnext]
  trace := by
    obtain ⟨u, hu, hu', hall⟩ := h.trace
    refine ⟨u ++ [e], by simp [hu], by simp [hu'], ?_⟩
    exact List.forall_mem_append.mpr ⟨hall, List.forall_mem_singleton.mpr he⟩

end Apart

variable {α : Type}

/-- A call that is answered the same is made in lockstep. -/
theorem lockstep_apart {call : Call} {answer : Board → Except Error α}
    {event : Except Error α → Event}
    (hanswer : ∀ b b', Apart past past' b b' → answer b' = answer b)
    (hevent : ∀ r, (event r).isIndifferent) :
    Lockstep (Apart past past') Eq (perform call answer event) (perform call answer event) := by
  refine lockstep_perform id (fun b b' hb => hb.fault?_eq call) ?_ (fun _ _ _ => rfl) ?_
  · intro b b' hb
    rw [Except.map_id]
    exact hanswer b b' hb
  · intro b b' r hb
    rw [Except.map_id]
    exact hb.record (hevent r)

theorem lockstep_start_apart (algorithm : Algorithm) (setup : Setup) :
    Lockstep (Apart past past') Eq (start algorithm setup) (start algorithm setup) := by
  refine Lockstep.bind (lockstep_apart ?_ fun _ => rfl) ?_
  · intro b b' hb
    rw [hb.nextId]
  · rintro id _ rfl
    exact lockstep_pure rfl

theorem lockstep_readUniqueId :
    Lockstep (Apart past past') Eq readUniqueId readUniqueId := by
  have hfield : ∀ {b b' : Board}, Apart past past' b b' →
      b'.fuses.field? .uniqueId = b.fuses.field? .uniqueId := fun hb => hb.uniqueId
  refine (lockstep_apart ?_ fun _ => rfl).bind fun size _ hsize => ?_
  · intro b b' hb
    rw [FuseBank.size, FuseBank.size, hfield hb]
  · subst hsize
    refine (lockstep_require _ _).bind fun _ _ _ => lockstep_apart ?_ fun _ => rfl
    intro b b' hb
    rw [FuseBank.read, FuseBank.read, hfield hb]

end Board

/-! ### Sessions apart -/

/-- Two runs on parts that are fused differently, in modes that need no sub-keys. -/
def apart (past past' : Trace) : Likeness where
  board := Board.Apart past past'
  cache _ _ := True
  header := Eq
  context _ _ := Eq
  mode m := m ≠ .symmetric

section Apart

variable {past past' : Trace}

theorem Platform.subkeysFor_of_plan {mode : CryptoMode} (hmode : mode ≠ .symmetric)
    {algorithm : Algorithm} (hplan : algorithm ∈ mode.plan) (key : Key) :
    Platform.subkeysFor algorithm key = pure none := by
  cases algorithm with
  | aesCmac => cases mode <;> simp [CryptoMode.plan] at hplan hmode
  | aesCbcDecrypt | rsaPss | ecdsa => rfl

theorem lawful_apart : (apart past past').Lawful where
  header_refl _ := rfl
  signedSection := by
    rintro h _ rfl
    rfl
  algorithm := by
    rintro _ _ c _ rfl
    rfl
  openContext := by
    rintro mode h _ hmode rfl keys algorithm hplan
    unfold Platform.openContext
    refine (lockstep_ofExcept _).bind ?_
    rintro _ key ⟨rfl, -⟩
    rw [Platform.subkeysFor_of_plan hmode hplan]
    exact Likeness.lockstep_onBoard (Board.lockstep_start_apart _ _)
  process := by
    rintro _ _ c _ rfl data
    refine (Board.lockstep_apart (fun _ _ _ => rfl) fun _ => rfl).imp ?_
    rintro r _ rfl
    exact ⟨rfl, rfl⟩
  finalize := by
    rintro c _ ⟨_, _, rfl⟩ -
    exact Board.lockstep_apart (fun _ _ _ => rfl) fun _ => rfl
  close := by
    rintro c _ b b' hb ⟨_, _, rfl⟩
    exact hb.record rfl

end Apart

/-! ### Authenticators -/

namespace Authenticator

variable {past past' : Trace} {a a' : Authenticator}

/-- Authenticators on the same chip, with guards in the same state, on boards apart. -/
structure Apart (past past' : Trace) (a a' : Authenticator) : Prop where
  chip : a'.chip = a.chip
  state : a'.guard.state = a.guard.state
  board : Board.Apart past past' a.board a'.board

/-- The session for a token looks at no fuse when it is opened, nor later on at a cache. -/
theorem Apart.sessions (h : Apart past past' a a') :
    (apart past past').Sessions a.tokenSession a'.tokenSession := by
  have hmode : ∀ m, a.tokenSession.source.Admits m → m ≠ .symmetric := by
    rintro _ ⟨⟩
    cases a.chip <;> exact nofun
  have hsame : a'.tokenSession = { a.tokenSession with platform := a'.platform } := by
    simp only [tokenSession, h.chip]
  rw [hsame]
  exact .mk hmode ⟨h.board, trivial⟩ .empty

theorem lockstep_pushFinalize (image : Bytes) :
    Lockstep (apart past past').Sessions Eq
      (do Session.push image true; let _ ← Session.finalize)
      (do Session.push image true; let _ ← Session.finalize) := by
  refine Lockstep.bind (fun s s' hs => lawful_apart.sameEnd_push hs true
    (fun _ => lawful_apart.openings_self image) fun _ => rfl) fun _ _ _ => ?_
  refine Lockstep.bind (W := Eq) (fun s s' hs => ?_) fun _ _ _ => lockstep_pure rfl
  refine lawful_apart.sameEnd_finalize hs (hs.chain.operations.imp fun c c' hc => ⟨hc, ?_⟩)
  obtain ⟨_, _, rfl⟩ := hc
  rfl

theorem lockstep_withSession_token (image : Bytes) :
    Lockstep (Apart past past') Eq
      (withSession .rollbackToken (List.replicate Rollback.Token.size 0) do
        Session.push image true
        let _ ← Session.finalize)
      (withSession .rollbackToken (List.replicate Rollback.Token.size 0) do
        Session.push image true
        let _ ← Session.finalize) := by
  have hopen : Lockstep (Apart past past')
      (fun s s' => (apart past past').Sessions s s')
      (openSession .rollbackToken (List.replicate Rollback.Token.size 0))
      (openSession .rollbackToken (List.replicate Rollback.Token.size 0)) :=
    fun a a' h => .ok h.sessions h
  refine hopen.bind fun s s' hs => ?_
  refine (lockstep_pushFinalize image).focus (fun _ _ _ => hs) fun a a' t t' h ht => ?_
  exact ⟨h.chip, h.state, (lawful_apart.release ht).platform.board⟩

/-- A token has the same effect on both parts. -/
theorem lockstep_bypassRollback (image : Bytes) :
    Lockstep (Apart past past') Eq (bypassRollback image) (bypassRollback image) := by
  refine (lockstep_ofExcept _).bind ?_
  rintro token _ ⟨rfl, -⟩
  refine lockstep_get.bind fun a a' h => ?_
  rw [h.chip]
  refine (Board.lockstep_readUniqueId.focus (fun _ _ h => h.board) fun _ _ _ _ h hb =>
    ⟨h.chip, h.state, hb⟩).bind ?_
  rintro uniqueId _ rfl
  refine (lockstep_ofExcept _).bind fun _ _ _ => (lockstep_withSession_token _).bind fun _ _ _ =>
    lockstep_modify fun _ _ h => ⟨h.chip, ?_, h.board⟩
  exact congrArg (fun state : Rollback.State => { state with enabled := false }) h.state

/-- Authenticators that agree on all that a bypass may depend on. They may differ in whether their parts
are in secure mode, in the boot security info and in the rollback counters, in the fused mode and the
sub-keys that they remember and in what has been called before. -/
structure FusedApart (a a' : Authenticator) : Prop where
  chip : a'.chip = a.chip
  state : a'.guard.state = a.guard.state
  uniqueId : a'.board.fuses.uniqueId = a.board.fuses.uniqueId
  faults : a'.board.faults = a.board.faults
  count : ∀ call, a'.board.count call = a.board.count call
  nextId : a'.board.nextId = a.board.nextId

/-- **A bypass does not depend on how the part is fused.** Authenticators that may differ in that and in
what they remember of it answer the same to a token and have guards in the same state afterwards. The
calls made for it are the same, too, and among them there is none that derives sub-keys or looks at a
fuse other than the unique id. -/
theorem bypassRollback_indifferent {a a' : Authenticator} (h : a.FusedApart a') (image : Bytes) :
    let t : Turn := ⟨a, .bypassRollback image⟩
    let t' : Turn := ⟨a', .bypassRollback image⟩
    t'.answer = t.answer ∧ t'.after.guard.state = t.after.guard.state ∧ t'.calls = t.calls ∧
      ∀ e ∈ t.calls, e.isIndifferent := by
  intro t t'
  have hstart : Apart a.board.trace a'.board.trace a a' :=
    ⟨h.chip, h.state, h.faults, h.uniqueId, h.count, h.nextId, [], by simp, by simp, by simp⟩
  have hends := lockstep_bypassRollback image a a' hstart
  obtain ⟨u, hu, hu', hall⟩ := hends.final.board.trace
  have hcalls : t.calls = u := Turn.calls_eq hu
  have hcalls' : t'.calls = u := Turn.calls_eq hu'
  refine ⟨congrArg Answer.bypassRollback hends.outcome_eq, hends.final.state, ?_, ?_⟩
  · rw [hcalls, hcalls']
  · rwa [hcalls]

/-- A token that lacks its signature is refused on a part in secure mode as on one out of the factory. -/
theorem bypassRollback_indifferent_unsigned :
    let token := Rollback.Token.make 1 (List.replicate 16 7)
    let image := (Header.blank .oemRsa 32).bytes ++ token.bytes
    let state : Rollback.State := { enabled := true, fuseIndex := 0, level := 1, floor := fun _ => 1 }
    let bank := { FuseBank.blank with uniqueId := some (List.replicate 16 7) }
    let part := fresh .t194 (.fresh bank []) state
    let fused : Authenticator :=
      { fresh .t194 (.fresh { bank with secure := true, info := some [5], counters := [[1]] } [])
          state with fusedMode := some .oemRsaEncrypted }
    let t : Turn := ⟨part, .bypassRollback image⟩
    let t' : Turn := ⟨fused, .bypassRollback image⟩
    t.answer = .bypassRollback (.error .verifyFailed) ∧ t'.answer = t.answer ∧
      t'.after.guard.state = t.after.guard.state ∧ t'.calls = t.calls ∧
      ∀ e ∈ t.calls, e.isIndifferent := by
  intro token image state bank part fused t t'
  have happart : part.FusedApart fused := ⟨rfl, rfl, rfl, rfl, fun _ => rfl, rfl⟩
  have hanswer : t.answer = .bypassRollback (.error .verifyFailed) := by decide +kernel
  -- From here on it does not matter any more which bytes the image consists of.
  clear_value image
  exact ⟨hanswer, bypassRollback_indifferent happart image⟩

end Authenticator

end SecureBoot
