import SecureBoot.Proofs.Changes

/-!
A session that has stopped, stops for good. A push that fails stops it, and so does a finalize,
whatever its verdict (`Session.Stops`). From then on a session has one answer to everything
(`Session.answer_of_stopped`): it refuses, and the little that it still does is `Session.idle`. So its
destination, its headers and its output stay as they are (`Session.Stopped.stands`), and all that is
left to be done with the hardware is to close the operations that are open, once
(`Session.Stopped.trace_after`, `Session.Stopped.trace_release`).
-/

namespace SecureBoot

open Step

namespace Session

variable {s s' : Session}

/-! ### Stopping -/

/-- A request that stops a session. -/
inductive Stops (s : Session) : Request → Prop where
  | failed {chunk : Bytes} {first : Bool} {e : Error}
      (h : (push chunk first).outcome s = .error e) : Stops s (.push chunk first)
  | finalized : Stops s .finalize

def Stopped (s : Session) : Prop := s.phase = .done ∨ s.phase = .failed

theorem phase_of_push_error {chunk : Bytes} {first : Bool} {e : Error}
    (h : (push chunk first).outcome s = .error e) : ((push chunk first).final s).phase = .failed := by
  have hensures : Ensures (push chunk first) s (fun _ _ => True)
      (fun _ s' => s'.phase = .failed) := by
    rw [push, ensures_onError]
    unfold Ensures
    split
    · trivial
    · rfl
  exact hensures.outcome_error h

/-- Coming to the verdict takes the hardware only. -/
theorem ensures_judge_platform (s : Session) :
    Ensures judge s (fun _ s' => ∃ platform, s' = { s with platform := platform })
      (fun _ s' => ∃ platform, s' = { s with platform := platform }) := by
  have hsame : ∃ platform, s = { s with platform := platform } := ⟨s.platform, rfl⟩
  simp only [judge, ensures_bind, ensures_get, ensures_require]
  refine ⟨fun _ => ?_, fun _ => hsame⟩
  split
  · simp only [ensures_bind, ensures_require, ensures_pure]
    refine ⟨fun _ => ⟨fun _ => ?_, fun _ => hsame⟩, fun _ => hsame⟩
    exact ensures_onPlatform _ s
  · exact hsame

/-- A finalize closes everything, and it stops a session that has not failed before. -/
theorem final_finalize (s : Session) :
    (finalize.final s).phase = (if s.phase = .failed then .failed else .done) ∧
      (finalize.final s).chain.contexts = [] := by
  have hend : ∀ s', (∃ platform, s' = { s with platform := platform }) →
      (if s'.phase = .failed then Phase.failed else .done) =
          (if s.phase = .failed then .failed else .done) ∧ s'.release.chain.contexts = [] := by
    rintro s' ⟨platform, rfl⟩
    exact ⟨rfl, contexts_release _⟩
  refine Ensures.final (p := fun s' : Session => s'.phase = (if s.phase = .failed then .failed else .done) ∧
    s'.chain.contexts = []) ?_
  simp only [finalize, ensures_ensuring]
  exact (ensures_judge_platform s).mono (fun _ => hend) fun _ => hend

theorem Stops.stopped {r : Request} (h : s.Stops r) : (s.answer r).2.Stopped := by
  cases h with
  | failed h => exact .inr (phase_of_push_error h)
  | finalized =>
    have hphase := s.final_finalize.1
    split at hphase
    · exact .inr hphase
    · exact .inl hphase

/-! ### What a session that has stopped does -/

/-- The calls that close the operations of a session. -/
def closing (s : Session) : Trace := s.chain.contexts.map fun c => .close c.id

/-- The answer that accepts nothing. Other NVIDIA signatures may always be required. -/
def Request.refusal : Request → Answer
  | .push .. => .push (.error .invalid)
  | .requireNvidia _ => .requireNvidia
  | .finalize => .finalize (.error .invalid)

/-- What a request does to a session that has stopped. -/
def idle (s : Session) : Request → Session
  | .push .. => { s with phase := .failed }
  | .requireNvidia policy => s.requireNvidia policy
  | .finalize => s.release

theorem Stopped.phase_ne (h : s.Stopped) : s.phase ≠ .awaitingHeader ∧ s.phase ≠ .processing := by
  rcases h with hphase | hphase <;> rw [hphase] <;> exact ⟨nofun, nofun⟩

/-- **A session that has stopped** refuses whatever it is asked. -/
theorem answer_of_stopped (h : s.Stopped) (r : Request) : s.answer r = (r.refusal, s.idle r) := by
  obtain ⟨hawaiting, hprocessing⟩ := h.phase_ne
  cases r with
  | requireNvidia policy => rfl
  | push chunk first =>
    apply Ensures.result (p := fun result s' => (Answer.push result, s') =
      (Request.refusal (.push chunk first), s.idle (.push chunk first)))
    apply (ensures_push_invalid (fun hphase => absurd hphase hawaiting)
      fun hphase => absurd hphase hprocessing).mono
    · exact fun _ _ hnever => hnever.elim
    · rintro e s' ⟨rfl, rfl⟩
      rfl
  | finalize =>
    have hphase : (if s.phase = .failed then .failed else .done) = s.phase := by
      rcases h with hphase | hphase <;> rw [hphase] <;> rfl
    apply Ensures.result (p := fun result s' => (Answer.finalize result, s') =
      (Request.refusal .finalize, s.idle .finalize))
    rw [finalize, ensures_ensuring]
    apply (ensures_judge_invalid hprocessing).mono
    · exact fun _ _ hnever => hnever.elim
    · rintro e s' ⟨rfl, rfl⟩
      rw [hphase]
      rfl

/-- What is to be seen of the binary in a session: its headers, the payload still to come, its bytes
and how many of them are output. -/
structure Stands (s s' : Session) : Prop where
  dest : s'.dest = s.dest
  headerCount : s'.headerCount = s.headerCount
  safeLength : s'.safeLength = s.safeLength
  remaining : s'.remaining = s.remaining

theorem Stands.refl (s : Session) : s.Stands s := ⟨rfl, rfl, rfl, rfl⟩

theorem Stands.trans {s'' : Session} (h : s.Stands s') (h' : s'.Stands s'') : s.Stands s'' where
  dest := h'.dest.trans h.dest
  headerCount := h'.headerCount.trans h.headerCount
  safeLength := h'.safeLength.trans h.safeLength
  remaining := h'.remaining.trans h.remaining

theorem Stands.symm (h : s.Stands s') : s'.Stands s where
  dest := h.dest.symm
  headerCount := h.headerCount.symm
  safeLength := h.safeLength.symm
  remaining := h.remaining.symm

theorem stands_release (s : Session) : s.Stands s.release where
  dest := rfl
  headerCount := by simp [headerCount, release]
  safeLength := rfl
  remaining := by
    simp only [remaining, release]
    cases s.chain <;> rfl

theorem stands_finalize (s : Session) : s.Stands (finalize.final s) := by
  have hend : ∀ s', (∃ platform, s' = { s with platform := platform }) →
      s.Stands { s'.release with phase := if s'.phase = .failed then .failed else .done } := by
    rintro s' ⟨platform, rfl⟩
    obtain ⟨hdest, hcount, hsafe, hremaining⟩ := s.stands_release
    exact ⟨hdest, hcount, hsafe, hremaining⟩
  refine Ensures.final (p := fun s' : Session => s.Stands s') ?_
  simp only [finalize, ensures_ensuring]
  exact (ensures_judge_platform s).mono (fun _ => hend) fun _ => hend

theorem trace_release (s : Session) : s.release.board.trace = s.board.trace ++ s.closing :=
  Board.trace_closeAll s.platform.board s.chain.contexts

theorem closing_release (s : Session) : s.release.closing = [] := by
  rw [closing, contexts_release, List.map_nil]

section Idle

variable (s : Session) (r : Request)

theorem stands_idle : s.Stands (s.idle r) := by
  cases r with
  | push | requireNvidia => exact ⟨rfl, rfl, rfl, rfl⟩
  | finalize => exact s.stands_release

theorem trace_idle :
    (s.idle r).board.trace = s.board.trace ++ if r = .finalize then s.closing else [] := by
  cases r with
  | push | requireNvidia => exact (List.append_nil _).symm
  | finalize => exact s.trace_release

theorem closing_idle : (s.idle r).closing = if r = .finalize then [] else s.closing := by
  cases r with
  | push | requireNvidia => rfl
  | finalize => exact s.closing_release

end Idle

namespace Stopped

theorem idle (h : s.Stopped) (r : Request) : (s.idle r).Stopped := by
  cases r with
  | push => exact .inr rfl
  | requireNvidia | finalize => exact h

theorem after_cons (h : s.Stopped) (r : Request) (rest : List Request) :
    s.after (r :: rest) = (s.idle r).after rest := by
  rw [Session.after_cons, answer_of_stopped h]

/-- Everything is refused. -/
theorem refuses (h : s.Stopped) (rest : List Request) :
    (s.transcript rest).map Prod.fst = rest.map Request.refusal := by
  induction rest generalizing s with
  | nil => rfl
  | cons r rest ih =>
    simp only [transcript, answer_of_stopped h, List.map_cons, ih (h.idle r)]

theorem stands (h : s.Stopped) (rest : List Request) : s.Stands (s.after rest) := by
  induction rest generalizing s with
  | nil => exact .refl s
  | cons r rest ih =>
    rw [h.after_cons]
    exact (s.stands_idle r).trans (ih (h.idle r))

/-- What is still open after some requests: nothing, once one of them was a finalize. -/
theorem closing_after (h : s.Stopped) (rest : List Request) :
    (s.after rest).closing = if .finalize ∈ rest then [] else s.closing := by
  induction rest generalizing s with
  | nil => rfl
  | cons r rest ih =>
    rw [h.after_cons, ih (h.idle r), closing_idle]
    by_cases hr : r = .finalize
    · simp [hr]
    · simp [hr, Ne.symm hr]

/-- The first finalize closes what is open, and no other request makes a call. -/
theorem trace_after (h : s.Stopped) (rest : List Request) :
    (s.after rest).board.trace = s.board.trace ++ if .finalize ∈ rest then s.closing else [] := by
  induction rest generalizing s with
  | nil => exact (List.append_nil _).symm
  | cons r rest ih =>
    rw [h.after_cons, ih (h.idle r), trace_idle, closing_idle]
    by_cases hr : r = .finalize
    · simp [hr]
    · simp [hr, Ne.symm hr]

/-- By the end everything that was open has been closed, and nothing else has happened. -/
theorem trace_release (h : s.Stopped) (rest : List Request) :
    (s.after rest).release.board.trace = s.board.trace ++ s.closing := by
  rw [Session.trace_release, h.trace_after, h.closing_after]
  split <;> simp

end Stopped

/-- A failure stays. -/
theorem phase_after_of_failed (h : s.phase = .failed) (rest : List Request) :
    (s.after rest).phase = .failed := by
  induction rest generalizing s with
  | nil => exact h
  | cons r rest ih =>
    rw [Stopped.after_cons (.inr h)]
    apply ih
    cases r with
    | push => rfl
    | requireNvidia | finalize => exact h

end Session

/-! ### Stopped for good -/

namespace Authenticator

variable {a : Authenticator} {type : BinaryType} {dest : Bytes} {s : Session}

open Session

/-- **A session stops for good.** Once a push has failed or a finalize has been asked for, whatever
its verdict, an opened session refuses every push and every finalize, and what is to be seen of the
binary stays as it is. The hardware is asked for nothing more than to close the operations that are
open then, each once: the first finalize does so, or else the end of the session, and after a finalize
there are none. A failed push leaves the session failed, through any finalize as well, and the safe
cursor where it was; a finalize leaves any other session done. -/
theorem stopped_for_good (hopen : (openSession type dest).outcome a = .ok s)
    (requests : List Session.Request) {r : Session.Request} (hstops : (s.after requests).Stops r) :
    let before := s.after requests
    let stopped := (before.answer r).2
    (∀ rest, (stopped.transcript rest).map Prod.fst = rest.map Request.refusal ∧
      stopped.Stands (stopped.after rest)) ∧
    (∃ t : Trace, stopped.board.trace = s.board.trace ++ t ∧ stopped.closing.Nodup ∧
      ∀ id, .close id ∈ stopped.closing ↔ t.Live id) ∧
    (∀ rest,
      (stopped.after rest).board.trace =
        stopped.board.trace ++ (if .finalize ∈ rest then stopped.closing else []) ∧
      (stopped.after rest).release.board.trace = stopped.board.trace ++ stopped.closing) ∧
    (∀ chunk first, r = .push chunk first →
      (∀ rest, (stopped.after rest).phase = .failed) ∧ stopped.safeLength = before.safeLength) ∧
    (r = .finalize →
      stopped.phase = (if before.phase = .failed then .failed else .done) ∧
        stopped.closing = []) := by
  intro before stopped
  have hstopped : stopped.Stopped := hstops.stopped
  obtain ⟨hawaits, -⟩ := awaits_of_openSession hopen
  have hcoherent : stopped.Coherent s.opening (pushed requests ++ r.chunk) :=
    (Coherent.after (.awaiting hawaits rfl) requests).answer r
  obtain ⟨t, haccounted⟩ := hcoherent.accounted
  refine ⟨fun rest => ⟨hstopped.refuses rest, hstopped.stands rest⟩, ⟨t, haccounted.since.trace, ?_,
    fun id => ?_⟩, fun rest => ⟨hstopped.trace_after rest, hstopped.trace_release rest⟩, ?_, ?_⟩
  · have hids := haccounted.ids_nodup
    rw [← List.nodup_map_iff (f := Event.close) fun _ _ h => Event.close.inj h, List.map_map] at hids
    exact hids
  · rw [haccounted.live_iff, closing]
    simp
  · rintro chunk first rfl
    cases hstops with
    | failed h =>
      refine ⟨phase_after_of_failed (phase_of_push_error h), ?_⟩
      exact ((goes_push chunk first before).outcome_error h).safe_eq
  · rintro rfl
    obtain ⟨hphase, hcontexts⟩ := before.final_finalize
    refine ⟨hphase, ?_⟩
    change ((finalize.final before).chain.contexts.map fun c => Event.close c.id) = []
    rw [hcontexts, List.map_nil]

/-- A token session whose first chunk comes a second time leaves one operation to be closed. -/
theorem stopped_for_good_token :
    let first := Session.Request.push (Header.blank .oemRsa 32).bytes true
    ∃ s, (openSession .rollbackToken (List.replicate 40 0)).outcome
        (fresh .t194 (.fresh .blank []) .disabled) = .ok s ∧
      (s.after [first]).Stops first ∧
      let stopped := ((s.after [first]).answer first).2
      ∀ rest, (stopped.after rest).phase = .failed ∧
        (stopped.after rest).release.board.trace = stopped.board.trace ++ [.close 0] := by
  intro first
  have hopen : (openSession .rollbackToken (List.replicate 40 0)).outcome
      (fresh .t194 (.fresh .blank []) .disabled) = .ok _ := rfl
  refine ⟨_, hopen, .failed (e := .invalid) (by decide +kernel), fun rest => ?_⟩
  obtain ⟨-, -, hcalls, hfailed, -⟩ :=
    stopped_for_good (r := first) hopen [first] (.failed (e := .invalid) (by decide +kernel))
  refine ⟨(hfailed _ _ rfl).1 rest, (hcalls rest).2.trans (congrArg _ ?_)⟩
  decide +kernel

end Authenticator

end SecureBoot
