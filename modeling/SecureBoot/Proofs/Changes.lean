import Mathlib.Logic.Relation
import SecureBoot.Proofs.Calls

/-!
The changes that a session goes through. Whatever it is asked, a session does no more than make one
`Session.Change` after another: the hardware is asked, payload is taken up, a layer runs, a header is
accepted, the inside is settled, the safe cursor moves, the session stops. `Session.Reaches` are the
states that such changes lead to, those in the middle of a request as well, and
`Session.reaches_after` says that every request stays among them. A request that fails leaves the safe
cursor where it was (`Session.Quiet`).

What each change keeps is therefore kept by a session as long as it lives (`Reaches.keeps`,
`Reaches.related`), without another look at the steps themselves.
-/

namespace SecureBoot

open Step

/-! ### Running keeps lengths -/

/-- Feeding an operation leaves it the operation that it is. -/
theorem Context.of_feed {c c' : Context} {data out : Bytes} (h : c.feed data = .ok (c', out)) :
    c'.operation = c.operation ∧ out = c.job.transform c.fed data := by
  simp only [feed] at h
  split at h
  · cases h
  · split at h
    · cases h
    · cases h
      exact ⟨rfl, rfl⟩

theorem Context.length_of_feed {c c' : Context} {data out : Bytes}
    (h : c.feed data = .ok (c', out)) : out.length = data.length :=
  (Context.of_feed h).2 ▸ length_output c data

theorem Bench.ensures_run_length (contexts : List Context) (w : Bench) :
    Ensures (Bench.run contexts) w (fun _ w' => w'.piece.length = w.piece.length)
      (fun _ w' => w'.piece.length = w.piece.length) := by
  induction contexts generalizing w with
  | nil => exact rfl
  | cons c rest ih =>
    simp only [Bench.run, Board.process, ensures_bind, ensures_get, ensures_focus, ensures_modify,
      ensures_pure]
    apply (Board.ensures_perform _ _ _ w.board).mono
    · rintro ⟨c', out⟩ b ⟨hfeed, -⟩
      have hlen : out.length = w.piece.length := Context.length_of_feed hfeed
      exact (ih _).mono (fun _ _ h => h.trans hlen) fun _ _ h => h.trans hlen
    · exact fun _ _ _ => trivial

theorem Chain.withOuter_self {c : Chain} {l : Layer} (h : c.outer? = some l) :
    c.withOuter l = c := by
  cases c <;> cases h <;> rfl

theorem Chain.eq_empty_of_outer? {c : Chain} (h : c.outer? = none) : c = .empty := by
  cases c with
  | empty => rfl
  | undecided | single | nested => cases h

theorem Chain.withOuter_eq_empty {c : Chain} {l : Layer} : c.withOuter l = .empty ↔ c = .empty := by
  cases c <;> simp [withOuter]

theorem Chain.map_eq_empty {c : Chain} {f : Layer → Layer} : c.map f = .empty ↔ c = .empty := by
  cases c <;> simp [map]

namespace Session

/-! ### Changes -/

/-- The layer of a session that may run, with the bytes of the destination that are ready for it and
the chain with another layer in its place. -/
inductive Works (s : Session) : Layer → Nat → (Layer → Chain) → Prop where
  /-- The outer layer runs over what has been taken up. -/
  | outer {l : Layer} (h : s.chain.outer? = some l) :
      Works s l s.window.filled (s.chain.withOuter ·)
  /-- The inner layer runs over what the outer one has released. -/
  | inner {outer inner : Layer} (h : s.chain = .nested outer inner) :
      Works s inner outer.safeEnd (.nested outer ·)

/-- What a layer keeps while it runs, all layers keep. -/
theorem Works.map_layers {s : Session} {l l' : Layer} {available : Nat} {put : Layer → Chain}
    {α : Type} {f : Layer → α} (hworks : s.Works l available put) (hf : f l' = f l) :
    (put l').layers.map f = s.chain.layers.map f := by
  cases hworks with
  | outer hl =>
    cases hchain : s.chain <;> rw [hchain] at hl <;> cases hl <;>
      simp only [Chain.withOuter, Chain.layers, List.map_cons, hf]
  | inner hchain =>
    rw [hchain]
    simp only [Chain.layers, List.map_cons, hf]

/-- A single change of a session. The hardware may answer anything. -/
inductive Change (s : Session) : Session → Prop where
  /-- The hardware is asked. -/
  | asked (platform : Platform) : Change s { s with platform := platform }
  /-- The outermost header is accepted. -/
  | opened {h : Header} {mode : CryptoMode} (hphase : s.phase = .awaitingHeader)
      (hfit : h.length ≤ s.window.capacity)
      (hmode : resolve h.signingWord s.source s.permitted = .ok mode)
      (platform : Platform) (contexts : List Context) (short : Bool) :
      Change s
        { s with
          platform := platform
          permitted := s.permitted.inside mode
          chain := .undecided ⟨h, mode, 0, 0, contexts⟩
          phase := .processing
          short := short }
  /-- Payload is taken up. -/
  | taken {payload : Bytes} (hremaining : payload.length ≤ s.remaining)
      (hspace : s.window.filled + payload.length ≤ s.window.capacity) :
      Change s
        { s with
          window := { s.window with filled := s.window.filled + payload.length }
          dest := overwrite s.dest s.window.filled payload }
  /-- A layer runs. -/
  | ran {l : Layer} {available : Nat} {put : Layer → Chain} (hworks : s.Works l available put)
      {piece : Bytes} (hpiece : piece.length ≤ l.runnable available) (platform : Platform)
      (contexts : List Context) :
      Change s
        { s with
          platform := platform
          dest := overwrite s.dest l.safeEnd piece
          chain := put (l.advance (l.runnable available) contexts) }
  /-- An operation of a layer fails, so that the layer does not get on. -/
  | spoiled {l : Layer} {available : Nat} {put : Layer → Chain} (hworks : s.Works l available put)
      {piece : Bytes} (hpiece : piece.length ≤ l.runnable available) (platform : Platform) :
      Change s { s with platform := platform, dest := overwrite s.dest l.safeEnd piece }
  /-- The outer payload turns out not to begin with a header. -/
  | settledSingle {outer : Layer} (hchain : s.chain = .undecided outer) :
      Change s { s with chain := .single outer }
  /-- The header at the start of the outer payload is accepted. -/
  | settledNested {outer : Layer} {h : Header} {mode : CryptoMode}
      (hchain : s.chain = .undecided outer) (hdone : Header.size ≤ outer.done)
      (hfit : h.length ≤ outer.size - Header.size)
      (hmode : resolve h.signingWord s.source s.permitted = .ok mode)
      (platform : Platform) (contexts : List Context) :
      Change s
        { s with
          platform := platform
          permitted := s.permitted.inside mode
          chain := .nested outer ⟨h, mode, outer.start + Header.size, 0, contexts⟩ }
  /-- The safe cursor moves. -/
  | committed {safe : Nat} (hsafe : s.chain.safe? = some safe) (hmin : s.window.safe ≤ safe)
      (hmax : safe ≤ s.window.filled) :
      Change s { s with window := { s.window with safe := safe } }
  /-- Other NVIDIA signatures are required. -/
  | required (policy : NvidiaPolicy) : Change s (s.requireNvidia policy)
  /-- All operations are closed. -/
  | released : Change s s.release
  /-- Nothing more is accepted. -/
  | stopped {phase : Phase} (hphase : phase = .done ∨ phase = .failed) :
      Change s { s with phase := phase }

/-- The states that a session goes through from some moment on. -/
abbrev Reaches : Session → Session → Prop := Relation.ReflTransGen Change

theorem Change.reaches {s s' : Session} (h : Change s s') : s.Reaches s' := .single h

/-- What every change keeps is kept. -/
theorem Reaches.keeps {p : Session → Prop} (hchange : ∀ {s s'}, p s → Change s s' → p s')
    {s s' : Session} (hreach : s.Reaches s') (h : p s) : p s' := by
  induction hreach with
  | refl => exact h
  | tail _ hlast ih => exact hchange ih hlast

/-- States that a run of changes leads through are related, if those before and after each change
are. -/
theorem Reaches.related {p : Session → Prop} {R : Session → Session → Prop}
    (hchange : ∀ {s s'}, p s → Change s s' → p s')
    (hrelated : ∀ {s s'}, p s → Change s s' → R s s') (hrefl : ∀ s, R s s)
    (htrans : ∀ {s s' s''}, R s s' → R s' s'' → R s s'') {s s' : Session} (hreach : s.Reaches s')
    (h : p s) : R s s' := by
  induction hreach with
  | refl => exact hrefl s
  | tail hfront hlast ih =>
    exact htrans ih (hrelated (Reaches.keeps hchange hfront h) hlast)

/-- A session that has accepted a header keeps one. -/
theorem Reaches.chain_ne_empty {s s' : Session} (hreach : s.Reaches s') (h : s.chain ≠ .empty) :
    s'.chain ≠ .empty := by
  refine hreach.keeps (p := fun s => s.chain ≠ .empty) ?_ h
  intro s s' hne hchange
  cases hchange with
  | asked | taken | spoiled | committed | required | stopped => exact hne
  | opened | settledSingle | settledNested => exact nofun
  | released => exact fun hempty => hne (Chain.map_eq_empty.mp hempty)
  | ran hworks =>
    cases hworks with
    | outer hl => exact fun hempty => hne (Chain.withOuter_eq_empty.mp hempty)
    | inner => exact nofun

/-- Changes that a session makes on its own account: nobody requires other NVIDIA signatures. -/
structure Runs (s s' : Session) : Prop where
  reaches : s.Reaches s'
  policy_eq : s'.nvidiaHeader = s.nvidiaHeader

/-- Changes of that kind that leave the safe cursor where it is. -/
structure Quiet (s s' : Session) : Prop extends Runs s s' where
  safe_eq : s'.window.safe = s.window.safe

theorem Runs.trans {s s' s'' : Session} (h : s.Runs s') (h' : s'.Runs s'') : s.Runs s'' :=
  ⟨h.reaches.trans h'.reaches, h'.policy_eq.trans h.policy_eq⟩

theorem Quiet.refl (s : Session) : s.Quiet s := ⟨⟨.refl, rfl⟩, rfl⟩

theorem Quiet.trans {s s' s'' : Session} (h : s.Quiet s') (h' : s'.Quiet s'') : s.Quiet s'' :=
  ⟨h.toRuns.trans h'.toRuns, h'.safe_eq.trans h.safe_eq⟩

instance : Std.Refl Quiet := ⟨Quiet.refl⟩

instance : IsTrans Session Quiet := ⟨fun _ _ _ => Quiet.trans⟩

theorem Change.quiet {s s' : Session} (h : Change s s') (hsafe : s'.window.safe = s.window.safe)
    (hpolicy : s'.nvidiaHeader = s.nvidiaHeader) : s.Quiet s' :=
  ⟨⟨h.reaches, hpolicy⟩, hsafe⟩

/-! ### Every step makes such changes -/

/-- The step makes such changes only, and a run of it that fails leaves the safe cursor where it
is. -/
def Goes {α : Type} (m : Step Session α) : Prop :=
  ∀ s, Ensures m s (fun _ s' => s.Runs s') (fun _ s' => s.Quiet s')

variable {α β : Type} {s : Session}

theorem Goes.bind {m : Step Session β} {f : β → Step Session α} (hm : Moves Quiet id m)
    (hf : ∀ b, Goes (f b)) : Goes (m >>= f) := by
  intro s
  rw [ensures_bind]
  refine (hm s).mono ?_ fun _ _ hquiet => hquiet
  intro b t hst
  exact (hf b t).mono (fun _ _ => hst.toRuns.trans) fun _ _ => hst.trans

/-- What is done with the hardware alone. -/
theorem ensures_onPlatform (m : Step Platform α) (s : Session) :
    Ensures (onPlatform m) s (fun _ s' => ∃ platform, s' = { s with platform := platform })
      (fun _ s' => ∃ platform, s' = { s with platform := platform }) := by
  rw [onPlatform, ensures_focus]
  unfold Ensures
  split
  · exact ⟨_, rfl⟩
  · exact ⟨_, rfl⟩

theorem ensures_accept_resolved (h : Header) (start : Nat) (s : Session) :
    Ensures (accept h start) s
      (fun l s' => ∃ mode platform contexts,
        resolve h.signingWord s.source s.permitted = .ok mode ∧ l = ⟨h, mode, start, 0, contexts⟩ ∧
        s' = { s with platform := platform, permitted := s.permitted.inside mode })
      (fun _ s' => ∃ platform, s' = { s with platform := platform }) := by
  simp only [accept, ensures_bind, ensures_get]
  cases hmode : resolve h.signingWord s.source s.permitted with
  | error e => exact ⟨s.platform, rfl⟩
  | ok mode =>
    rw [ensures_ofExcept_ok]
    refine (ensures_onPlatform _ s).mono ?_ fun _ _ hbad => hbad
    rintro opened s₁ ⟨platform, rfl⟩
    simp only [ensures_onError, ensures_modify, ensures_pure, onBoard]
    apply (ensures_onPlatform _ _).mono
    · rintro contexts s₂ ⟨platform', rfl⟩
      exact ⟨mode, platform', contexts, rfl, rfl, rfl⟩
    · rintro e s₂ ⟨platform', rfl⟩
      exact ⟨_, rfl⟩

theorem quiet_runLayer {l : Layer} {available : Nat} {put : Layer → Chain}
    (hworks : s.Works l available put) (hput : put l = s.chain) :
    Ensures (runLayer l available) s
      (fun l' s' => s'.chain = s.chain ∧ s.Quiet { s' with chain := put l' })
      (fun _ s' => s.Quiet s') := by
  unfold runLayer
  by_cases hzero : l.runnable available = 0
  · simp only [hzero, if_pos, ensures_pure, hput, true_and]
    exact .refl s
  · simp only [if_neg hzero, ensures_bind, onPiece, ensures_focus, ensures_pure]
    have hlen : (slice s.dest l.safeEnd (l.runnable available)).length ≤ l.runnable available := by
      rw [length_slice]
      exact Nat.min_le_left ..
    apply (Bench.ensures_run_length l.contexts _).mono
    · intro contexts w hpiece
      have hle := Nat.le_trans (Nat.le_of_eq hpiece) hlen
      exact ⟨trivial, (Change.ran hworks hle _ contexts).quiet rfl rfl⟩
    · intro e w hpiece
      have hle := Nat.le_trans (Nat.le_of_eq hpiece) hlen
      exact (Change.spoiled hworks hle _).quiet rfl rfl

theorem quiet_runOuter : Moves Quiet id runOuter := by
  intro s
  simp only [runOuter, ensures_bind, ensures_get]
  cases houter : s.chain.outer? with
  | none => exact .refl s
  | some l =>
    simp only [ensures_bind, ensures_modify]
    apply (quiet_runLayer (.outer houter) (Chain.withOuter_self houter)).mono
    · rintro l' s' ⟨hchain, hquiet⟩
      rw [hchain]
      exact hquiet
    · exact fun _ _ hquiet => hquiet

theorem quiet_settle : Moves Quiet id settle := by
  intro s
  refine ensures_settle_of_accept (.refl s) (fun _ => .refl s)
    (fun outer hchain => (Change.settledSingle hchain).quiet rfl rfl) fun outer h hchain _ hparse => ?_
  obtain ⟨-, htake, hfit⟩ := Header.parse_eq_some_iff.mp hparse
  -- A header has been read, so that much of the payload has run.
  have hdone : Header.size ≤ outer.done := by
    have hlen := congrArg List.length htake
    rw [List.length_take, length_slice, Header.length_bytes_eq] at hlen
    omega
  apply (ensures_accept_resolved h (outer.start + Header.size) s).mono
  · rintro l s' ⟨mode, platform, contexts, hmode, rfl, rfl⟩
    exact (Change.settledNested hchain hdone hfit hmode platform contexts).quiet rfl rfl
  · rintro e s' ⟨platform, rfl⟩
    exact (Change.asked platform).quiet rfl rfl

theorem quiet_runInner : Moves Quiet id runInner := by
  intro s
  simp only [runInner, ensures_bind, ensures_get]
  cases hchain : s.chain with
  | empty | undecided outer | single outer => exact .refl s
  | nested outer inner =>
    simp only [ensures_bind, ensures_modify]
    exact (quiet_runLayer (.inner hchain) hchain.symm).mono (fun _ _ h => h.2) fun _ _ h => h

theorem goes_commit : Goes commit := by
  intro s
  simp only [commit, ensures_bind, ensures_get]
  cases hsafe : s.chain.safe? with
  | none => exact (Quiet.refl s).toRuns
  | some safe =>
    simp only [onWindow, ensures_focus]
    unfold Ensures
    rw [Window.run_commit]
    by_cases hfit : s.window.safe ≤ safe ∧ safe ≤ s.window.filled
    · rw [if_pos hfit]
      exact ⟨(Change.committed hsafe hfit.1 hfit.2).reaches, rfl⟩
    · rw [if_neg hfit]
      exact .refl s

theorem goes_pump : Goes pump :=
  .bind quiet_runOuter fun _ => .bind quiet_settle fun _ => .bind quiet_runInner fun _ => goes_commit

/-- A change that leaves the safe cursor where it is may come first. -/
theorem Goes.after {m : Step Session α} (h : Goes m) {s₀ : Session} (hquiet : s₀.Quiet s) :
    Ensures m s (fun _ s' => s₀.Runs s') (fun _ s' => s₀.Quiet s') :=
  (h s).mono (fun _ _ => hquiet.toRuns.trans) fun _ _ => hquiet.trans

theorem goes_consume (payload : Bytes) : Goes (consume payload) := by
  intro s
  simp only [consume, ensures_bind, ensures_get, onWindow, ensures_focus, ensures_modify]
  have hremaining : (payload.take s.remaining).length ≤ s.remaining := List.length_take_le ..
  unfold Ensures
  rw [Window.run_fill]
  by_cases hspace : s.window.filled + (payload.take s.remaining).length ≤ s.window.capacity
  · rw [if_pos hspace]
    exact goes_pump.after ((Change.taken hremaining hspace).quiet rfl rfl)
  · rw [if_neg hspace]
    exact .refl s

theorem ensures_pushFirst_goes (hphase : s.phase = .awaitingHeader) (chunk : Bytes) :
    Ensures (pushFirst chunk) s (fun _ s' => s.Runs s') (fun _ s' => s.Quiet s') := by
  simp only [pushFirst, ensures_bind, ensures_get]
  cases hparse : Header.parse chunk (.capacity s.window.capacity) with
  | error e => exact .refl s
  | ok found =>
    rw [ensures_ofExcept_ok]
    cases found with
    | none => exact .refl s
    | some h =>
      have hfit := (Header.parse_eq_some_iff.mp hparse).2.2
      simp only [ensures_bind, ensures_modify]
      apply (ensures_accept_resolved h 0 s).mono
      · rintro l s' ⟨mode, platform, contexts, hmode, rfl, rfl⟩
        have hopened := Change.opened hphase hfit hmode platform contexts
        exact (goes_consume _).after ((hopened _).quiet rfl rfl)
      · rintro e s' ⟨platform, rfl⟩
        exact (Change.asked platform).quiet rfl rfl

theorem goes_push (chunk : Bytes) (first : Bool) : Goes (push chunk first) := by
  have hfail : ∀ {s s' : Session}, s.Quiet s' → s.Quiet { s' with phase := .failed } :=
    fun hquiet => hquiet.trans ((Change.stopped (.inr rfl)).quiet rfl rfl)
  intro s
  simp only [push, ensures_onError, ensures_bind, ensures_get]
  cases hphase : s.phase <;> cases first
  case awaitingHeader.true =>
    exact (ensures_pushFirst_goes hphase chunk).mono (fun _ _ h => h) fun _ _ => hfail
  case processing.false => exact (goes_consume chunk s).mono (fun _ _ h => h) fun _ _ => hfail
  all_goals exact hfail (.refl s)

theorem quiet_finalize : Moves Quiet id finalize := by
  refine Moves.ensuring ?_ fun s => ?_
  · refine moves_get.bind fun s => (moves_require _ _).bind fun _ => ?_
    split
    · refine (moves_require _ _).bind fun _ => (moves_require _ _).bind fun _ => Moves.bind ?_
        fun _ => moves_pure _
      intro s
      apply (ensures_onPlatform _ s).mono
      · rintro _ s' ⟨platform, rfl⟩
        exact (Change.asked platform).quiet rfl rfl
      · rintro _ s' ⟨platform, rfl⟩
        exact (Change.asked platform).quiet rfl rfl
    · exact moves_throw _
  · refine (Change.released.quiet rfl rfl).trans ((Change.stopped ?_).quiet rfl rfl)
    split
    · exact .inr rfl
    · exact .inl rfl

/-- The NVIDIA signatures that are required after a request, given those before. -/
def Request.required (policy : NvidiaPolicy) : Request → NvidiaPolicy
  | .requireNvidia other => other
  | .push .. | .finalize => policy

theorem runs_push (chunk : Bytes) (first : Bool) (s : Session) :
    s.Runs ((push chunk first).final s) :=
  Ensures.final ((goes_push chunk first s).mono (fun _ _ h => h) fun _ _ h => h.toRuns)

theorem reaches_answer (s : Session) (r : Request) : s.Reaches (s.answer r).2 := by
  cases r with
  | push chunk first => exact (runs_push chunk first s).reaches
  | requireNvidia policy => exact (Change.required policy).reaches
  | finalize => exact (quiet_finalize.final s).reaches

theorem policy_answer (s : Session) (r : Request) :
    (s.answer r).2.nvidiaHeader = r.required s.nvidiaHeader := by
  cases r with
  | push chunk first => exact (runs_push chunk first s).policy_eq
  | requireNvidia policy => rfl
  | finalize => exact (quiet_finalize.final s).policy_eq

/-- **Whatever is asked of a session**, it changes in these ways only. -/
theorem reaches_after (s : Session) (requests : List Request) : s.Reaches (s.after requests) := by
  induction requests generalizing s with
  | nil => exact .refl
  | cons r rest ih => exact (s.reaches_answer r).trans (ih _)

/-- Nothing but a push that is taken in moves the safe cursor. -/
theorem safe_answer (s : Session) (r : Request) :
    (s.answer r).2.window.safe = s.window.safe ∨
      ∃ chunk first, r = .push chunk first ∧ (push chunk first).outcome s = .ok () := by
  cases r with
  | push chunk first =>
    cases hout : (push chunk first).outcome s with
    | ok _ => exact .inr ⟨chunk, first, rfl, hout⟩
    | error e => exact .inl ((goes_push chunk first s).outcome_error hout).safe_eq
  | requireNvidia policy => exact .inl rfl
  | finalize => exact .inl (quiet_finalize.final s).safe_eq

end Session

end SecureBoot
