import SecureBoot.Authenticator.History
import SecureBoot.Proofs.Verdict

/-!
The course of a session, from its opening to its end. Whatever is asked of it in between, in any order
and also after an error, it stays coherent with the bytes that it has been pushed
(`Session.Coherent.after`): it awaits them, it stands where they lead to, or it has come to an end and
still accounts for its operations. Opening a session reads fuses but sets nothing up
(`Authenticator.ensures_openSession`), and ending it closes what is open.
-/

namespace SecureBoot

/-! ### Requests -/

namespace Session

/-- The bytes that a request brings. -/
def Request.chunk : Request → Bytes
  | .push chunk _ => chunk
  | .requireNvidia _ | .finalize => []

/-- All bytes that some requests bring. -/
def pushed (requests : List Request) : Bytes := requests.flatMap Request.chunk

/-- The NVIDIA signatures that are required may change at any time. -/
theorem At.requireNvidia {o : Opening} {policy : NvidiaPolicy} {image : Bytes} {s : Session}
    (h : s.At o policy image) (required : NvidiaPolicy) :
    (s.requireNvidia required).At o required image := by
  obtain ⟨outline, t, houtline, hp, hshows, hsafe⟩ := h
  exact ⟨outline, t, houtline, hp, { hshows with policy := rfl }, hsafe⟩

/-- What a session that has been asked any number of things has to do with the bytes pushed. -/
inductive Coherent (o : Opening) (image : Bytes) (s : Session) : Prop where
  | awaiting {policy : NvidiaPolicy} {t : Trace} (h : s.Awaits o policy t) (himage : image = [])
  | standing {policy : NvidiaPolicy} (h : s.At o policy image)
  | ended {t : Trace} (h : s.Accounted o image t) (hphase : s.phase = .done ∨ s.phase = .failed)

namespace Coherent

variable {o : Opening} {image : Bytes} {s : Session}

theorem accounted (h : s.Coherent o image) : ∃ t, s.Accounted o image t := by
  cases h with
  | awaiting h himage => exact ⟨_, h.accounted image⟩
  | standing h =>
    obtain ⟨outline, t, houtline, hp, hshows, -⟩ := h
    exact ⟨t, hshows.accounted hp ⟨(Opening.outline_eq_ok_iff.mp houtline).1, rfl⟩⟩
  | ended h hphase => exact ⟨_, h⟩

/-- A session that awaits its header has been pushed nothing. -/
theorem exists_awaits (h : s.Coherent o image) (hphase : s.phase = .awaitingHeader) :
    image = [] ∧ ∃ policy t, s.Awaits o policy t := by
  cases h with
  | awaiting h himage => exact ⟨himage, _, _, h⟩
  | standing h => cases h.phase.symm.trans hphase
  | ended _ hended => rcases hended with hended | hended <;> cases hended.symm.trans hphase

/-- A session that is taking in payload stands somewhere. -/
theorem exists_at (h : s.Coherent o image) (hphase : s.phase = .processing) :
    ∃ policy, s.At o policy image := by
  cases h with
  | awaiting h => cases h.phase.symm.trans hphase
  | standing h => exact ⟨_, h⟩
  | ended _ hended => rcases hended with hended | hended <;> cases hended.symm.trans hphase

/-- A push is the first one, or it is one that goes on, or it is out of order. -/
theorem push_cases (h : s.Coherent o image) (chunk : Bytes) (first : Bool)
    {good : Unit → Session → Prop} {bad : Error → Session → Prop}
    (hfirst : ∀ {policy t}, s.Awaits o policy t → image = [] →
      Step.Ensures (Session.push chunk true) s good bad)
    (hnext : ∀ {policy}, s.At o policy image → Step.Ensures (Session.push chunk false) s good bad)
    (hinvalid : bad .invalid { s with phase := .failed }) :
    Step.Ensures (Session.push chunk first) s good bad := by
  have hrefused : (s.phase = .awaitingHeader → first = false) →
      (s.phase = .processing → first = true) →
      Step.Ensures (Session.push chunk first) s good bad := by
    intro hawaiting hprocessing
    refine (ensures_push_invalid hawaiting hprocessing).mono (fun _ _ hnever => hnever.elim) ?_
    rintro _ s' ⟨rfl, rfl⟩
    exact hinvalid
  cases h with
  | awaiting h himage =>
    cases first with
    | false => exact hrefused (fun _ => rfl) (by rw [h.phase]; exact nofun)
    | true => exact hfirst h himage
  | standing h =>
    have hphase : s.phase = .processing := h.phase
    cases first with
    | true => exact hrefused (by rw [hphase]; exact nofun) fun _ => rfl
    | false => exact hnext h
  | ended h hphase =>
    apply hrefused
    · intro hawaiting
      rw [hawaiting] at hphase
      exact absurd hphase (by decide)
    · intro hprocessing
      rw [hprocessing] at hphase
      exact absurd hphase (by decide)

theorem push (h : s.Coherent o image) (chunk : Bytes) (first : Bool) :
    ((Session.push chunk first).final s).Coherent o (image ++ chunk) := by
  have hrefused : ∀ {e : Error} {s' : Session},
      s'.Refused o (image ++ chunk) e ∧ s'.phase = .failed → s'.Coherent o (image ++ chunk) := by
    rintro e s' ⟨⟨⟨t, haccounted⟩, -⟩, hphase⟩
    exact .ended haccounted (.inr hphase)
  refine Step.Ensures.final (h.push_cases chunk first ?_ ?_ ?_)
  · rintro policy t hawaits rfl
    exact (ensures_push_first hawaits chunk).mono (fun _ _ => .standing) fun _ _ => hrefused
  · intro policy hat
    exact (ensures_push_next hat chunk).mono (fun _ _ => .standing) fun _ _ => hrefused
  · -- A push out of order leaves the operations as they are.
    obtain ⟨t, haccounted⟩ := h.accounted
    refine .ended (t := t) ?_ (.inr rfl)
    exact
      { since := haccounted.since
        live_iff := haccounted.live_iff
        ids_nodup := haccounted.ids_nodup
        honours := haccounted.honours.begin_with (Opening.strands_append image chunk) }

theorem requireNvidia (h : s.Coherent o image) (policy : NvidiaPolicy) :
    (s.requireNvidia policy).Coherent o image := by
  cases h with
  | awaiting h himage => exact .awaiting { h with policy := rfl } himage
  | standing h => exact .standing (h.requireNvidia policy)
  | ended h hphase => exact .ended { h with } hphase

theorem finalize (h : s.Coherent o image) : (Session.finalize.final s).Coherent o image := by
  have hended : ∀ {t : Trace}, s.Accounted o image t → s.phase ≠ .processing →
      (Session.finalize.final s).Coherent o image := by
    intro t haccounted hphase
    refine Step.Ensures.final ((ensures_finalize_invalid hphase haccounted).mono
      (fun _ _ hnever => hnever.elim) ?_)
    rintro e s' ⟨-, hphase', -, t', haccounted'⟩
    refine .ended haccounted' ?_
    rw [hphase']
    split
    · exact .inr rfl
    · exact .inl rfl
  cases h with
  | awaiting h himage => exact hended (h.accounted image) (by rw [h.phase]; exact nofun)
  | standing h =>
    refine Step.Ensures.final ((ensures_finalize h).mono ?_ ?_)
    · rintro v s' ⟨-, hphase, -, t, haccounted⟩
      exact .ended haccounted (.inl hphase)
    · rintro e s' ⟨-, hphase, -, t, haccounted⟩
      exact .ended haccounted (.inl hphase)
  | ended h hphase =>
    apply hended h
    intro hprocessing
    rw [hprocessing] at hphase
    exact absurd hphase (by decide)

/-- What one request keeps. -/
theorem answer (h : s.Coherent o image) (r : Request) :
    (s.answer r).2.Coherent o (image ++ r.chunk) := by
  cases r with
  | push chunk first => exact h.push chunk first
  | requireNvidia policy => exact (List.append_nil image).symm ▸ h.requireNvidia policy
  | finalize => exact (List.append_nil image).symm ▸ h.finalize

/-- **Whatever is asked**, a session stays coherent with what it has been pushed. -/
theorem after (h : s.Coherent o image) (requests : List Request) :
    (s.after requests).Coherent o (image ++ pushed requests) := by
  induction requests generalizing s image with
  | nil => exact (List.append_nil image).symm ▸ h
  | cons r rest ih =>
    have hrest := ih (h.answer r)
    rw [List.append_assoc] at hrest
    exact hrest

end Coherent

/-- A session that accounts for its operations leaves none behind when it ends. -/
theorem Accounted.released {o : Opening} {image : Bytes} {t : Trace} {s : Session}
    (h : s.Accounted o image t) :
    ∃ u, s.release.platform.board.trace = o.board.trace ++ u ∧ Trace.Released u := by
  have hrelease := h.release
  refine ⟨_, hrelease.since.trace, hrelease.since.orderly.released fun id hlive => ?_⟩
  have hid := (hrelease.live_iff id).mp hlive
  rw [contexts_release] at hid
  exact absurd hid List.not_mem_nil

end Session

/-! ### Opening -/

namespace Board

variable {α β : Type}

/-- The step sets nothing up, if nothing had been set up before. -/
def Looks (m : Step Board α) : Prop :=
  ∀ ⦃start b : Board⦄ ⦃t : Trace⦄, Since start b t → t.operations = [] →
    Step.Ensures m b (fun _ b' => ∃ t', Since start b' t' ∧ Trace.operations t' = [])
      (fun _ b' => ∃ t', Since start b' t' ∧ Trace.operations t' = [])

theorem looks_perform {call : Call} {answer : Board → Except Error α}
    {event : Except Error α → Event} (hop : ∀ r, (event r).operation? = none)
    (hfollows : ∀ t r, (event r).Follows t) (hanswered : ∀ t r, (event r).Answered t) :
    Looks (perform call answer event) := by
  intro start b t hs hops
  have hrecord : ∀ r, ∃ t', Since start (b.record (event r)) t' ∧ Trace.operations t' = [] := by
    intro r
    refine ⟨t ++ [event r], hs.record (hop r) (hfollows t r) fun _ => hanswered t r, ?_⟩
    rw [Trace.operations_append, hops]
    simp [Trace.operations, hop r]
  apply (ensures_perform call answer event b).mono
  · rintro a b' ⟨-, rfl⟩
    exact hrecord _
  · rintro e b' ⟨rfl, -⟩
    exact hrecord _

theorem Looks.bind {m : Step Board α} {f : α → Step Board β} (hm : Looks m)
    (hf : ∀ a, Looks (f a)) : Looks (m >>= f) := by
  intro start b t hs hops
  rw [Step.ensures_bind]
  refine (hm hs hops).mono ?_ fun _ _ hbad => hbad
  rintro a b' ⟨t', hs', hops'⟩
  exact hf a hs' hops'

theorem looks_pure (a : α) : Looks (pure a) := fun _ _ t hs hops => ⟨t, hs, hops⟩

theorem looks_get : Looks (get : Step Board Board) := fun _ _ t hs hops => ⟨t, hs, hops⟩

theorem looks_ofExcept (r : Except Error α) : Looks (Step.ofExcept r) := by
  cases r with
  | ok a => exact looks_pure a
  | error e => exact fun _ _ t hs hops => ⟨t, hs, hops⟩

theorem looks_require (p : Prop) [Decidable p] (e : Error) : Looks (Step.require p e) := by
  intro start b t hs hops
  rw [Step.ensures_require]
  exact ⟨fun _ => ⟨t, hs, hops⟩, fun _ => ⟨t, hs, hops⟩⟩

theorem looks_query (field : FuseField) : Looks (query field) := by
  unfold query
  exact looks_perform (fun _ => rfl) (fun _ _ => trivial) fun _ _ => trivial

theorem looks_read (field : FuseField) (size : Nat) : Looks (read field size) := by
  unfold read
  exact looks_perform (fun _ => rfl) (fun _ _ => trivial) fun _ _ => trivial

theorem looks_readWord (field : FuseField) : Looks (readWord field) :=
  (looks_query field).bind fun size => (looks_require _ _).bind fun _ =>
    (looks_read field size).bind fun _ => looks_pure _

theorem looks_readUniqueId : Looks readUniqueId :=
  (looks_query _).bind fun size => (looks_require _ _).bind fun _ => looks_read _ size

theorem looks_readFusedMode : Looks readFusedMode :=
  looks_get.bind fun _ => (looks_readWord _).bind fun _ => looks_ofExcept _

end Board

namespace Authenticator

variable {α : Type} {a : Authenticator} {start : Board} {t : Trace}

theorem ensures_modeSource (hs : Board.Since start a.board t) (hops : t.operations = [])
    (type : BinaryType) :
    Step.Ensures (modeSource type) a
      (fun _ a' => a'.chip = a.chip ∧ a'.platform.cache = a.platform.cache ∧
        ∃ t', Board.Since start a'.board t' ∧ Trace.operations t' = [])
      (fun _ a' => ∃ t', Board.Since start a'.board t' ∧ Trace.operations t' = []) := by
  simp only [modeSource, Step.ensures_bind, Step.ensures_get]
  by_cases htoken : type = .rollbackToken
  · simp only [if_pos htoken, Step.ensures_pure]
    exact ⟨trivial, trivial, t, hs, hops⟩
  · simp only [if_neg htoken, Step.ensures_bind, decodeFuses, Step.ensures_get, Step.ensures_pure]
    cases a.fusedMode with
    | some mode => exact ⟨rfl, rfl, t, hs, hops⟩
    | none =>
      simp only [Step.ensures_bind, onBoard, Step.ensures_focus, Step.ensures_modify,
        Step.ensures_pure]
      exact (Board.looks_readFusedMode hs hops).mono (fun _ _ hlooked => ⟨rfl, rfl, hlooked⟩)
        fun _ _ hlooked => hlooked

/-- **Opening a session**: it awaits its header under the policy of its type, and nothing has been
set up for it yet. -/
theorem ensures_openSession (hs : Board.Since start a.board t) (hops : t.operations = [])
    (type : BinaryType) (dest : Bytes) :
    Step.Ensures (openSession type dest) a
      (fun s a' => s.platform = a'.platform ∧
        s.opening =
          { board := a'.board
            ring := ⟨(a.chip.policy type).keys,
              a.platform.cache.effective (a.chip.policy type).keys.cmac⟩
            source := s.source
            permitted := (a.chip.policy type).allowed
            dest := dest } ∧
        ∃ t', s.Awaits { s.opening with board := start } s.nvidiaHeader t')
      (fun _ a' => ∃ t', Board.Since start a'.board t' ∧ Trace.operations t' = []) := by
  simp only [openSession, Step.ensures_bind, Step.ensures_require]
  refine ⟨fun hne => ?_, fun _ => ⟨t, hs, hops⟩⟩
  refine (ensures_modeSource hs hops type).mono ?_ fun _ _ hbad => hbad
  rintro source a' ⟨hchip, hcache, t', hs', hops'⟩
  have hlength : dest.length ≠ 0 := fun hzero => hne (List.eq_nil_of_length_eq_zero hzero)
  have hwindow : Window.ofCapacity dest.length = .ok ⟨dest.length, 0, 0⟩ := if_neg hlength
  simp only [Step.ensures_get, Session.start, hwindow]
  rw [← hchip, ← hcache]
  refine ⟨rfl, rfl, t', ?_⟩
  exact
    { since := hs'
      subkeys := rfl
      source := rfl
      keys := rfl
      operations := hops'
      permitted := rfl
      policy := rfl
      phase := rfl
      window := rfl
      dest := rfl
      chain := rfl }

/-- A session that has been opened awaits its header. -/
theorem awaits_of_openSession {type : BinaryType} {dest : Bytes} {s : Session}
    (h : (openSession type dest).outcome a = .ok s) :
    s.Awaits s.opening s.nvidiaHeader [] ∧ s.platform.board.faults = a.board.faults := by
  obtain ⟨-, -, t, hs⟩ := (ensures_openSession (.refl a.board) rfl type dest).outcome_ok h
  refine ⟨?_, hs.since.faults⟩
  exact
    { since := .refl _
      subkeys := rfl
      source := rfl
      keys := rfl
      operations := rfl
      permitted := rfl
      policy := rfl
      phase := hs.phase
      window := hs.window
      dest := rfl
      chain := hs.chain }

theorem Visit.last_eq (s : Session) (requests : List Session.Request) :
    Visit.last ⟨s, s.transcript requests⟩ = s.after requests := by
  induction requests generalizing s with
  | nil => rfl
  | cons r rest ih =>
    have hrest := ih (s.answer r).2
    simp only [Visit.last, Session.transcript, Session.after_cons, List.getLast?_cons] at hrest ⊢
    rw [← hrest]
    cases ((s.answer r).2.transcript rest).getLast? <;> rfl

end Authenticator

end SecureBoot
