import SecureBoot.Proofs.Course

/-!
Nothing is left behind. Whatever a session is asked and whichever faults strike, all operations that
have been set up for it are closed by its end, each exactly once and after its last use
(`released_at_end`). The same goes for the session that checks a rollback-bypass token.
-/

namespace SecureBoot.Authenticator

variable {α : Type} {a : Authenticator} {start : Board} {t : Trace}

/-- The record since `start` has released everything that it has set up. -/
def ReleasedSince (start : Board) (a : Authenticator) : Prop :=
  ∃ t, a.board.trace = start.trace ++ t ∧ Trace.Released t

theorem releasedSince_of_operations (hs : Board.Since start a.board t) (hops : t.operations = []) :
    a.ReleasedSince start := by
  refine ⟨t, hs.trace, hs.orderly.released fun id hlive => ?_⟩
  rw [Trace.Live, Trace.opened_iff_mem, hops] at hlive
  exact absurd hlive.1 List.not_mem_nil

/-- Ending a session that accounts for its operations releases them. -/
theorem releasedSince_endSession {o : Opening} {image : Bytes} {s : Session}
    (h : s.Accounted o image t) (a : Authenticator) :
    (endSession s a).ReleasedSince o.board := h.released

theorem ensures_visit (type : BinaryType) (dest : Bytes) (requests : List Session.Request) :
    Step.Ensures (visit type dest requests) a (fun _ a' => a'.ReleasedSince a.board)
      (fun _ a' => a'.ReleasedSince a.board) := by
  simp only [visit, Step.ensures_bind, Step.ensures_modify, Step.ensures_pure]
  apply (ensures_openSession (.refl a.board) rfl type dest).mono
  · rintro s a' ⟨-, -, t, h⟩
    obtain ⟨u, haccounted⟩ := (Session.Coherent.awaiting h rfl).after requests |>.accounted
    rw [Visit.last_eq]
    exact releasedSince_endSession haccounted a'
  · rintro e a' ⟨t, hs, hops⟩
    exact releasedSince_of_operations hs hops

/-- A step that accounts for the operations of a session, however it ends, may be run in one. -/
theorem ensures_withSession (hs : Board.Since start a.board t) (hops : t.operations = [])
    {m : Step Session α}
    (hm : ∀ {o : Opening} {policy : NvidiaPolicy} {t : Trace} {s : Session}, s.Awaits o policy t →
      Step.Ensures m s (fun _ s' => ∃ image t, s'.Accounted o image t)
        (fun _ s' => ∃ image t, s'.Accounted o image t))
    (type : BinaryType) (dest : Bytes) :
    Step.Ensures (withSession type dest m) a (fun _ a' => a'.ReleasedSince start)
      (fun _ a' => a'.ReleasedSince start) := by
  simp only [withSession, Step.ensures_bind, Step.ensures_focus]
  apply (ensures_openSession hs hops type dest).mono
  · rintro s a' ⟨-, -, t', h⟩
    apply (hm h).mono
    · rintro _ s' ⟨image, u, haccounted⟩
      exact releasedSince_endSession haccounted a'
    · rintro _ s' ⟨image, u, haccounted⟩
      exact releasedSince_endSession haccounted a'
  · rintro e a' ⟨t', hs', hops'⟩
    exact releasedSince_of_operations hs' hops'

theorem ensures_bypassRollback (image : Bytes) :
    Step.Ensures (bypassRollback image) a (fun _ a' => a'.ReleasedSince a.board)
      (fun _ a' => a'.ReleasedSince a.board) := by
  have hquiet : a.ReleasedSince a.board := releasedSince_of_operations (.refl a.board) rfl
  simp only [bypassRollback, Step.ensures_bind, Step.ensures_get]
  cases parseToken image with
  | error e => exact hquiet
  | ok token =>
    simp only [Step.ensures_ofExcept_ok, onBoard, Step.ensures_focus, Step.ensures_modify]
    apply (Board.looks_readUniqueId (.refl a.board) rfl).mono
    · rintro uniqueId b ⟨t, hs, hops⟩
      cases token.check a.chip.tokenVersion uniqueId with
      | error e => exact releasedSince_of_operations (a := a.setBoard b) hs hops
      | ok _ =>
        rw [Step.ensures_ofExcept_ok]
        refine ensures_withSession (a := a.setBoard b) hs hops ?_ _ _
        intro o policy t s h
        simp only [Step.ensures_bind, Step.ensures_pure]
        apply (Session.ensures_push_first h _).mono
        · intro _ s' hat
          apply (Session.ensures_finalize hat).mono
          · rintro _ s'' ⟨-, -, -, haccounted⟩
            exact ⟨_, haccounted⟩
          · rintro _ s'' ⟨-, -, -, haccounted⟩
            exact ⟨_, haccounted⟩
        · rintro _ s' ⟨⟨haccounted, -⟩, -⟩
          exact ⟨_, haccounted⟩
    · rintro e b ⟨t, hs, hops⟩
      exact releasedSince_of_operations (a := a.setBoard b) hs hops

/-- **Everything is released**: whatever is asked of a session, in whichever order and however the
engine fails, by its end each operation has been closed exactly once, after it was set up and after
its last use, and nothing else has been closed. A rollback-bypass token leaves nothing behind
either. -/
theorem released_at_end (a : Authenticator) :
    (∀ type dest requests, ((visit type dest requests).final a).ReleasedSince a.board) ∧
      ∀ image, ((bypassRollback image).final a).ReleasedSince a.board :=
  ⟨fun type dest requests => (ensures_visit type dest requests).final,
    fun image => (ensures_bypassRollback image).final⟩

end SecureBoot.Authenticator
