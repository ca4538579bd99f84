import SecureBoot.Proofs.Processing
import SecureBoot.Proofs.Stopping
import SecureBoot.Proofs.Surplus

/-!
A payload that comes in one piece, together with its header. Nothing special is done about it: the one
pump that follows has all of the payload to run, so that the outer operations are fed it by one call
each, and if another header shows up in what they have made, the inner ones are fed theirs in the same
way (`Session.ensures_pushFirst_calls`). After that there is nothing left to feed
(`Session.Spent.processing_after`).
-/

namespace SecureBoot

open Step

/-- A part of what has just been written over the front. -/
theorem slice_overwrite_front {b piece : Bytes} {start n : Nat} (hpiece : piece.length ≤ b.length)
    (h : start + n ≤ piece.length) : slice (overwrite b 0 piece) start n = slice piece start n := by
  apply List.ext_getElem?
  intro i
  rw [getElem?_slice, getElem?_slice]
  split
  · rw [getElem?_overwrite _ _ _ _ (by omega), if_pos (by omega), Nat.sub_zero]
  · rfl

namespace Chain

/-- The calls that feed the operations of all layers if the outer payload runs at once, the outer layer's
first. The inner payload is what the outer operations have made of it. -/
def calls (payload : Bytes) : Chain → Trace
  | .empty => []
  | .undecided outer | .single outer => outer.calls payload
  | .nested outer inner =>
    outer.calls payload ++ inner.calls (slice (outer.made payload) Header.size inner.size)

end Chain

namespace Session

variable {s s' : Session}

/-! ### What a session that has begun keeps -/

/-- A session that has accepted a header, and what it remembers of it. -/
structure Engaged (e : Envelope) (short : Bool) (s : Session) : Prop where
  phase : s.phase ≠ .awaitingHeader
  short_eq : s.short = short
  outer : s.chain.outer?.map Layer.envelope = some e

theorem Engaged.change {e : Envelope} {short : Bool} (h : s.Engaged e short) (hchange : s.Change s') :
    s'.Engaged e short := by
  cases hchange with
  | asked | taken | spoiled | committed | required => exact { h with }
  | opened hphase => exact absurd hphase h.phase
  | @ran l available put hworks =>
    have hlayers : ∀ contexts,
        (put (l.advance (l.runnable available) contexts)).layers.map Layer.envelope =
          s.chain.layers.map Layer.envelope := fun _ => hworks.map_layers rfl
    refine ⟨h.phase, h.short_eq, ?_⟩
    rw [← h.outer, Chain.outer?, Chain.outer?, ← List.head?_map, ← List.head?_map, hlayers]
  | settledSingle hchain | settledNested hchain =>
    refine ⟨h.phase, h.short_eq, ?_⟩
    rw [← h.outer, hchain]
    rfl
  | released =>
    refine ⟨h.phase, h.short_eq, ?_⟩
    rw [← h.outer, release]
    cases s.chain <;> rfl
  | stopped hphase =>
    refine ⟨?_, h.short_eq, h.outer⟩
    rcases hphase with rfl | rfl <;> rintro ⟨⟩

/-- The first push remembers its header, and whether it has brought all of a payload that is to be
decrypted as well as checked. -/
theorem ensures_pushFirst_engaged (chunk : Bytes) (s : Session) :
    Ensures (pushFirst chunk) s
      (fun _ s' => ∃ e, Header.parse chunk (.capacity s.window.capacity) = .ok (some e.header) ∧
        s'.Engaged e (e.size ≤ (chunk.drop Header.size).length && e.mode.isPaired))
      (fun _ _ => True) := by
  simp only [pushFirst, ensures_bind, ensures_get]
  cases hparse : Header.parse chunk (.capacity s.window.capacity) with
  | error e => trivial
  | ok found =>
    cases found with
    | none => trivial
    | some h =>
      simp only [ensures_bind, ensures_ofExcept_ok, ensures_modify]
      refine (ensures_accept_resolved h 0 s).mono ?_ fun _ _ _ => trivial
      rintro l s' ⟨mode, platform, contexts, -, rfl, rfl⟩
      refine (goes_consume _ _).mono ?_ fun _ _ _ => trivial
      intro _ s'' hruns
      refine ⟨⟨h, mode⟩, rfl, hruns.reaches.keeps Engaged.change ⟨?_, rfl, rfl⟩⟩
      rintro ⟨⟩

end Session

/-! ### Layers that begin -/

/-- A layer with nothing of its payload run, and with the operations of its mode. -/
structure Layer.Begun (l : Layer) : Prop where
  done : l.done = 0
  plan : l.contexts.map Context.algorithm = l.mode.plan
  fresh : ∀ c ∈ l.contexts, c.Fresh

/-- The layer has run all of its payload with the same operations. -/
structure Layer.Completes (l l' : Layer) : Prop where
  header : l'.header = l.header
  mode : l'.mode = l.mode
  start : l'.start = l.start
  done : l'.done = l.size
  operations : l'.operations = l.operations

namespace Layer.Completes

variable {l l' : Layer}

theorem plan (h : l.Completes l') (hplan : l.contexts.map Context.algorithm = l.mode.plan) :
    l'.contexts.map Context.algorithm = l'.mode.plan := by
  have halgs := congrArg (List.map fun op => op.algorithm) h.operations
  rw [List.map_map, List.map_map] at halgs
  rw [h.mode, ← hplan]
  exact halgs

theorem made_eq (h : l.Completes l') (payload : Bytes) : l'.made payload = l.made payload := by
  rw [Layer.made, Layer.made, h.operations]

theorem calls_eq (h : l.Completes l') (payload : Bytes) : l'.calls payload = l.calls payload := by
  rw [Layer.calls, Layer.calls, h.header, h.operations]

theorem size_eq (h : l.Completes l') : l'.size = l.size := congrArg Header.length h.header

end Layer.Completes

namespace Platform

theorem ensures_openContext_fresh (mode : CryptoMode) (keys : KeyTable) (h : Header)
    (algorithm : Algorithm) (p : Platform) :
    Ensures (openContext mode keys h algorithm) p
      (fun c _ => c.algorithm = algorithm ∧ c.Fresh) (fun _ _ => True) := by
  simp only [openContext, ensures_bind]
  refine (ensures_exec _ p).mono (fun key p₁ _ => ?_) fun _ _ _ => trivial
  refine (ensures_exec _ p₁).mono (fun subkeys p₂ _ => ?_) fun _ _ _ => trivial
  rw [onBoard, ensures_focus]
  unfold Board.start
  rw [ensures_bind]
  refine (ensures_exec _ p₂.board).mono (fun id b _ => ?_) fun _ _ _ => trivial
  exact ⟨rfl, fun _ => rfl⟩

theorem ensures_openContexts_fresh (mode : CryptoMode) (keys : KeyTable) (h : Header)
    (algorithms : List Algorithm) (p : Platform) :
    Ensures (openContexts mode keys h algorithms) p
      (fun contexts _ => contexts.map Context.algorithm = algorithms ∧ ∀ c ∈ contexts, c.Fresh)
      (fun _ _ => True) := by
  induction algorithms generalizing p with
  | nil => exact ⟨rfl, fun _ hc => absurd hc List.not_mem_nil⟩
  | cons algorithm rest ih =>
    simp only [openContexts, ensures_bind, ensures_onError, ensures_pure]
    refine (ensures_openContext_fresh mode keys h algorithm p).mono ?_ fun _ _ _ => trivial
    rintro c p' ⟨halg, hc⟩
    refine (ih p').mono ?_ fun _ _ _ => trivial
    rintro cs p'' ⟨halgs, hcs⟩
    exact ⟨by rw [List.map_cons, halg, halgs], List.forall_mem_cons.mpr ⟨hc, hcs⟩⟩

end Platform

namespace Session

variable {s : Session}

/-- **Accepting a header** feeds the signed section and nothing else. -/
theorem ensures_accept_calls (h : Header) (start : Nat) (s : Session) :
    Ensures (accept h start) s
      (fun l s' => l.header = h ∧ l.start = start ∧ l.Begun ∧
        s'.board.processing = s.board.processing ++ sectionCalls h.signedSection l.operations ∧
        ∃ platform permitted, s' = { s with platform := platform, permitted := permitted })
      (fun _ _ => True) := by
  simp only [accept, ensures_bind, ensures_get]
  cases hmode : resolve h.signingWord s.source s.permitted with
  | error e => trivial
  | ok mode =>
    simp only [ensures_ofExcept_ok, onPlatform, onBoard, Platform.onBoard, ensures_focus,
      ensures_onError, ensures_modify, ensures_pure]
    refine ((Platform.ensures_openContexts_fresh mode s.keys h mode.plan s.platform).and
      (Platform.asks_openContexts mode s.keys h mode.plan s.platform)).mono ?_ fun _ _ _ => trivial
    rintro opened p ⟨⟨hplan, hfresh⟩, hasked⟩
    refine (Board.ensures_feedSection_calls h.signedSection opened p.board).mono ?_
      fun _ _ _ => trivial
    rintro contexts b ⟨hops, hfresh', htrace⟩
    have hquiet : p.board.processing = s.board.processing :=
      hasked.processing_eq fun _ => Event.not_isProcess_of_isSetUp
    have hplan' : contexts.map Context.algorithm = mode.plan := by
      rw [← hplan]
      have halgs := congrArg (List.map fun op => op.algorithm) hops
      rwa [List.map_map, List.map_map] at halgs
    refine ⟨trivial, trivial, ⟨rfl, hplan', hfresh' hfresh⟩, ?_, _, _, rfl⟩
    rw [Layer.operations, hops, ← hquiet, Board.processing, htrace, Trace.processing_append,
      processing_sectionCalls]
    rfl

/-- **A layer that has all of its payload to run** is fed it by one call for each operation. -/
theorem ensures_runLayer_calls {l : Layer} {available : Nat} {payload : Bytes} (hbegun : l.Begun)
    (hsize : payload.length = l.size) (hrun : l.runnable available = payload.length)
    (hpayload : slice s.dest l.start payload.length = payload) :
    Ensures (runLayer l available) s
      (fun l' s' => l.Completes l' ∧
        s'.board.trace = s.board.trace ++ payloadCalls l.operations payload ∧
        ∃ platform, s' = { s with
          platform := platform
          dest := overwrite s.dest l.start (l.made payload) })
      (fun _ _ => True) := by
  have hsafe : l.safeEnd = l.start := by rw [Layer.safeEnd, hbegun.done, Nat.add_zero]
  unfold runLayer payloadCalls
  by_cases hnil : payload = []
  · have hzero : l.size = 0 := by rw [← hsize, hnil, List.length_nil]
    have hnothing : l.made payload = [] :=
      List.eq_nil_of_length_eq_zero (by rw [Layer.length_made, hnil, List.length_nil])
    have hidle : l.runnable available = 0 := by rw [hrun, hnil, List.length_nil]
    simp only [hidle, if_pos, ensures_pure, if_pos hnil, List.append_nil, hnothing, overwrite_nil]
    exact ⟨⟨rfl, rfl, rfl, hbegun.done.trans hzero.symm, rfl⟩, trivial, s.platform, rfl⟩
  · have hpos : payload.length ≠ 0 := fun hzero => hnil (List.eq_nil_of_length_eq_zero hzero)
    simp only [hrun, if_neg hpos, if_neg hnil, hsafe, ensures_bind, onPiece, ensures_focus,
      ensures_pure, hpayload]
    refine (Bench.ensures_run_calls hbegun.fresh _).mono ?_ fun _ _ _ => trivial
    rintro contexts w ⟨hops, hpiece, htrace⟩
    refine ⟨⟨rfl, rfl, rfl, ?_, hops⟩, htrace, { s.platform with board := w.board }, ?_⟩
    · rw [Layer.advance, hbegun.done, hsize, Nat.zero_add]
    · rw [hpiece]
      rfl

/-! ### All layers -/

/-- The outer layer runs all of its payload. -/
theorem ensures_runOuter_calls {outer : Layer} {payload : Bytes} (hbegun : outer.Begun)
    (hstart : outer.start = 0) (hchain : s.chain = .undecided outer)
    (hsize : payload.length = outer.size) (hfilled : s.window.filled = outer.size)
    (hdest : slice s.dest 0 payload.length = payload) :
    Ensures runOuter s
      (fun _ s' => ∃ outer', outer.Completes outer' ∧ s'.chain = .undecided outer' ∧
        s'.board.trace = s.board.trace ++ payloadCalls outer.operations payload ∧
        s'.dest = overwrite s.dest 0 (outer.made payload))
      (fun _ _ => True) := by
  have houter : s.chain.outer? = some outer := by rw [hchain]; rfl
  have hrun : outer.runnable s.window.filled = payload.length := by
    have hstop : outer.stop = outer.size := by rw [Layer.stop, hstart, Nat.zero_add]
    rw [Layer.runnable, hfilled, hstop, Layer.safeEnd, hstart, hbegun.done, Nat.min_self,
      if_neg (Nat.lt_irrefl _), hsize]
    rfl
  simp only [runOuter, ensures_bind, ensures_get, houter, ensures_modify]
  refine (ensures_runLayer_calls hbegun hsize hrun (hstart ▸ hdest)).mono ?_ fun _ _ _ => trivial
  rintro outer' s' ⟨hcompletes, htrace, platform, rfl⟩
  rw [hstart, hchain]
  exact ⟨outer', hcompletes, rfl, htrace, rfl⟩

/-- It is settled what is inside a payload that has run completely. -/
theorem ensures_settle_calls {outer : Layer} (hstart : outer.start = 0)
    (hdone : outer.done = outer.size) (hchain : s.chain = .undecided outer) :
    Ensures settle s
      (fun _ s' => s'.dest = s.dest ∧
        ((s'.chain = .single outer ∧ s'.board = s.board) ∨
          ∃ inner : Layer, s'.chain = .nested outer inner ∧ inner.Begun ∧
            inner.start = Header.size ∧ Header.size + inner.size ≤ outer.size ∧
            s'.board.processing =
              s.board.processing ++ sectionCalls inner.header.signedSection inner.operations))
      (fun _ _ => True) := by
  have hlate : ¬ (outer.done < Header.size ∧ outer.done < outer.size) :=
    fun hearly => Nat.ne_of_lt hearly.2 hdone
  simp only [settle, ensures_bind, ensures_get, hchain, if_neg hlate]
  cases hparse : Header.parse (slice s.dest outer.start (min outer.done Header.size))
      (.enclosing (outer.size - Header.size)) with
  | error e => trivial
  | ok found =>
    rw [ensures_ofExcept_ok]
    cases found with
    | none => exact ⟨rfl, .inl ⟨rfl, rfl⟩⟩
    | some h =>
      obtain ⟨hheader, hfit⟩ := Header.length_of_parse hparse
      have hspace : Header.size + h.length ≤ outer.size := by
        have hlimit : h.length ≤ outer.size - Header.size := hfit
        rw [length_slice] at hheader
        omega
      simp only [ensures_bind, ensures_modify]
      refine (ensures_accept_calls h (outer.start + Header.size) s).mono ?_ fun _ _ _ => trivial
      rintro inner s' ⟨rfl, hinner, hbegun, htrace, platform, permitted, rfl⟩
      rw [hstart, Nat.zero_add] at hinner
      exact ⟨rfl, .inr ⟨inner, rfl, hbegun, hinner, hspace, htrace⟩⟩

/-- The inner layer runs all of its payload, too. -/
theorem ensures_runInner_calls {outer inner : Layer} {payload : Bytes} (hbegun : inner.Begun)
    (hstart : inner.start = Header.size) (hchain : s.chain = .nested outer inner)
    (hspace : inner.stop ≤ outer.safeEnd) (hsize : payload.length = inner.size)
    (hdest : slice s.dest Header.size payload.length = payload) :
    Ensures runInner s
      (fun _ s' => ∃ inner', inner.Completes inner' ∧ s'.chain = .nested outer inner' ∧
        s'.board.trace = s.board.trace ++ payloadCalls inner.operations payload)
      (fun _ _ => True) := by
  have hrun : inner.runnable outer.safeEnd = payload.length := by
    have hpiece : inner.stop - inner.start = inner.size := Nat.add_sub_cancel_left ..
    rw [Layer.runnable, Nat.min_eq_right hspace, Layer.safeEnd, hbegun.done, Nat.add_zero,
      if_neg (Nat.lt_irrefl _), hpiece, hsize]
  simp only [runInner, ensures_bind, ensures_get, hchain, ensures_modify]
  refine (ensures_runLayer_calls hbegun hsize hrun (hstart ▸ hdest)).mono ?_ fun _ _ _ => trivial
  rintro inner' s' ⟨hcompletes, htrace, platform, rfl⟩
  exact ⟨inner', hcompletes, rfl, htrace⟩

/-- Moving the safe cursor asks nothing of anybody. -/
theorem ensures_commit_frame (s : Session) :
    Ensures commit s (fun _ s' => s'.chain = s.chain ∧ s'.board = s.board) (fun _ _ => True) := by
  simp only [commit, ensures_bind, ensures_get]
  cases s.chain.safe? with
  | none => exact ⟨rfl, rfl⟩
  | some safe =>
    simp only [onWindow, ensures_focus]
    exact (ensures_exec _ _).mono (fun _ _ _ => ⟨trivial, trivial⟩) fun _ _ _ => trivial

/-- What has been fed for the layers of a session, given the calls before the first of them. -/
structure FedOnce (before : Trace) (payload : Bytes) (s : Session) : Prop where
  processing : s.board.processing = before ++ s.chain.calls payload
  plan : ∀ l ∈ s.chain.layers, l.contexts.map Context.algorithm = l.mode.plan
  inside : ∀ outer inner, s.chain = .nested outer inner → Header.size + inner.size ≤ outer.size

/-- **The pump runs the whole payload at once**, that of the outer layer and then that of the inner
one. -/
theorem ensures_pump_calls {outer : Layer} {payload : Bytes} {before : Trace} (hbegun : outer.Begun)
    (hstart : outer.start = 0) (hchain : s.chain = .undecided outer)
    (hsize : payload.length = outer.size) (hfilled : s.window.filled = outer.size)
    (hdest : slice s.dest 0 payload.length = payload) (hfit : payload.length ≤ s.dest.length)
    (hbefore : s.board.processing =
      before ++ sectionCalls outer.header.signedSection outer.operations) :
    Ensures pump s (fun _ s' => s'.FedOnce before payload) (fun _ _ => True) := by
  simp only [pump, ensures_bind]
  refine (ensures_runOuter_calls hbegun hstart hchain hsize hfilled hdest).mono ?_
    fun _ _ _ => trivial
  rintro _ s₁ ⟨outer', houter, hchain₁, htrace₁, hdest₁⟩
  have hdone : outer'.done = outer'.size := by rw [houter.done, houter.size_eq]
  have hstart' : outer'.start = 0 := houter.start.trans hstart
  have hprocessing₁ : s₁.board.processing = before ++ outer'.calls payload := by
    rw [Board.processing, htrace₁, Trace.processing_append, processing_payloadCalls,
      houter.calls_eq, Layer.calls, ← List.append_assoc, ← hbefore]
    rfl
  refine (ensures_settle_calls hstart' hdone hchain₁).mono ?_ fun _ _ _ => trivial
  rintro _ s₂ ⟨hdest₂, ⟨hchain₂, hboard₂⟩ | ⟨inner, hchain₂, hinner, hinside, hspace, hprocessing₂⟩⟩
  · -- There is no other header.
    simp only [runInner, ensures_bind, ensures_get, hchain₂, ensures_pure]
    refine (ensures_commit_frame s₂).mono ?_ fun _ _ _ => trivial
    rintro _ s₃ ⟨hchain₃, hboard₃⟩
    constructor
    · rw [hboard₃, hboard₂, hprocessing₁, hchain₃, hchain₂]
      rfl
    · rw [hchain₃, hchain₂]
      exact List.forall_mem_singleton.mpr (houter.plan hbegun.plan)
    · rw [hchain₃, hchain₂]
      exact nofun
  · -- The inner payload is what the outer operations have made of it.
    have hmade : (outer'.made payload).length = outer'.size := by
      rw [Layer.length_made, hsize, houter.size_eq]
    have hinnerSize : (slice (outer'.made payload) Header.size inner.size).length = inner.size := by
      rw [length_slice, hmade]
      omega
    have hpiece : slice s₂.dest Header.size inner.size =
        slice (outer'.made payload) Header.size inner.size := by
      rw [hdest₂, hdest₁, houter.made_eq]
      apply slice_overwrite_front
      · rwa [Layer.length_made]
      · rwa [Layer.length_made, hsize, ← houter.size_eq]
    have hstop : inner.stop ≤ outer'.safeEnd := by
      rw [Layer.stop, hinside, Layer.safeEnd, hstart', hdone, Nat.zero_add]
      exact hspace
    refine (ensures_runInner_calls hinner hinside hchain₂ hstop hinnerSize
      (hinnerSize.symm ▸ hpiece)).mono ?_
      fun _ _ _ => trivial
    rintro _ s₃ ⟨inner', hinner', hchain₃, htrace₃⟩
    refine (ensures_commit_frame s₃).mono ?_ fun _ _ _ => trivial
    rintro _ s₄ ⟨hchain₄, hboard₄⟩
    constructor
    · rw [hboard₄, hchain₄, hchain₃, Board.processing, htrace₃, Trace.processing_append,
        processing_payloadCalls, ← Board.processing, hprocessing₂, hprocessing₁, Chain.calls,
        hinner'.calls_eq, hinner'.size_eq]
      simp only [Layer.calls, List.append_assoc]
    · rw [hchain₄, hchain₃]
      exact List.forall_mem_cons.mpr ⟨houter.plan hbegun.plan,
        List.forall_mem_singleton.mpr (hinner'.plan hinner.plan)⟩
    · rw [hchain₄, hchain₃]
      rintro _ _ ⟨⟩
      rwa [hinner'.size_eq]

/-- **The push that brings the header and all of the payload** feeds every layer at once. -/
theorem ensures_pushFirst_calls {chunk : Bytes} {h : Header} (hfilled : s.window.filled = 0)
    (hcapacity : s.window.capacity = s.dest.length)
    (hparse : Header.parse chunk (.capacity s.window.capacity) = .ok (some h))
    (hwhole : h.length ≤ (chunk.drop Header.size).length) :
    Ensures (pushFirst chunk) s
      (fun _ s' => s'.FedOnce s.board.processing ((chunk.drop Header.size).take h.length))
      (fun _ _ => True) := by
  have hroom : h.length ≤ s.window.capacity := (Header.length_of_parse hparse).2
  have hlength : ((chunk.drop Header.size).take h.length).length = h.length := by
    rw [List.length_take, Nat.min_eq_left hwhole]
  simp only [pushFirst, ensures_bind, ensures_get, hparse, ensures_ofExcept_ok, ensures_modify]
  refine (ensures_accept_calls h 0 s).mono ?_ fun _ _ _ => trivial
  rintro outer s' ⟨rfl, hstart, hbegun, hsection, platform, permitted, rfl⟩
  have hremaining : outer.size - s.window.filled = outer.header.length := by rw [hfilled]; rfl
  simp only [consume, remaining, Chain.outer?, Chain.layers, List.head?_cons, hremaining,
    ensures_bind, ensures_get, ensures_modify, onWindow, ensures_focus]
  refine (Window.ensures_fill ?_).mono ?_ fun _ _ hnever => hnever.elim
  · rw [hlength, hfilled, Nat.zero_add]
    exact hroom
  rintro extent w ⟨hextent, rfl⟩
  have hfit : 0 + ((chunk.drop Header.size).take outer.header.length).length ≤ s.dest.length := by
    rw [hlength, Nat.zero_add, ← hcapacity]
    exact hroom
  refine ensures_pump_calls hbegun hstart rfl hlength ?_ ?_ ?_ hsection
  · change s.window.filled + _ = _
    rw [hfilled, hlength, Nat.zero_add]
    rfl
  · change slice (overwrite s.dest extent.start _) 0 _ = _
    rw [hextent, hfilled]
    exact slice_overwrite_self hfit
  · change _ ≤ (overwrite s.dest extent.start _).length
    rw [length_overwrite]
    rwa [Nat.zero_add] at hfit

/-! ### Nothing is left to feed -/

theorem processes_finalizeAll (contexts : List Context) :
    Moves Eq Board.processing (Board.finalizeAll contexts) := by
  induction contexts with
  | nil => exact moves_pure ()
  | cons c rest ih =>
    have hfinalize : Moves (Board.Extends fun e => e.isProcess = false) id (Board.finalize c) := by
      unfold Board.finalize
      exact Board.moves_perform fun _ => rfl
    intro b
    rw [Board.ensures_finalizeAll_cons]
    have hsame : ∀ b', b.Extends (fun e => e.isProcess = false) b' → b.processing = b'.processing :=
      fun _ hextends => (hextends.processing_eq fun _ he => he).symm
    refine (hfinalize b).mono (fun _ b' h => ?_) fun _ b' h => hsame b' h
    exact (ih b').mono (fun _ _ => (hsame b' h).trans) fun _ _ => (hsame b' h).trans

theorem processing_release (s : Session) : s.release.board.processing = s.board.processing :=
  (Board.extends_closeAll (p := fun e => e.isProcess = false) (fun _ => rfl) s.chain.contexts
    s.board).processing_eq fun _ he => he

/-- Coming to the verdict feeds nothing. -/
theorem processes_finalize : Moves Eq (fun s => s.board.processing) finalize := by
  refine Moves.ensuring ?_ fun s => s.processing_release.symm
  apply moves_get.bind
  intro s
  apply (moves_require _ _).bind
  intro _
  split
  · have hplatform : Moves Eq (fun p : Platform => p.board.processing)
        (Platform.onBoard (Board.finalizeAll s.chain.contexts)) :=
      (processes_finalizeAll _).focus fun _ _ h => h
    exact (moves_require _ _).bind fun _ => (moves_require _ _).bind fun _ =>
      Moves.bind (hplatform.focus fun _ _ h => h) fun _ => moves_pure _
  · exact moves_throw _

/-- A session that has been pushed all of its payload, or that has stopped. -/
inductive Spent (o : Opening) (s : Session) : Prop where
  | complete {policy : NvidiaPolicy} {image : Bytes} (h : s.At o policy image)
      (hremaining : s.remaining = 0)
  | stopped (h : s.Stopped)

namespace Spent

variable {o : Opening}

/-- It feeds nothing more, and so it stays. -/
theorem answer (h : s.Spent o) (r : Request) :
    (s.answer r).2.Spent o ∧ (s.answer r).2.board.processing = s.board.processing := by
  cases h with
  | stopped h =>
    rw [answer_of_stopped h]
    refine ⟨.stopped (h.idle r), ?_⟩
    cases r with
    | push | requireNvidia => rfl
    | finalize => exact s.processing_release
  | @complete policy image h hremaining =>
    cases r with
    | requireNvidia required => exact ⟨.complete (h.requireNvidia required) hremaining, rfl⟩
    | finalize => exact ⟨.stopped Stops.finalized.stopped, (processes_finalize.final s).symm⟩
    | push chunk first =>
      cases first with
      | false =>
        have hsame : (s.answer (.push chunk false)).2 = s := by
          have hexec := h.exec_push (by rw [hremaining, List.take_zero] : chunk.take s.remaining = [])
          rw [Session.answer, hexec]
          rfl
        rw [hsame]
        exact ⟨.complete h hremaining, rfl⟩
      | true =>
        -- A first chunk after the first is out of order.
        have hphase : s.phase = .processing := h.phase
        apply Ensures.final (m := push chunk true) (s := s)
          (p := fun s' => s'.Spent o ∧ s'.board.processing = s.board.processing)
        refine (ensures_push_invalid (by rw [hphase]; exact nofun) fun _ => rfl).mono
          (fun _ _ hnever => hnever.elim) ?_
        rintro e s' ⟨-, rfl⟩
        exact ⟨.stopped (.inr rfl), rfl⟩

theorem processing_after (h : s.Spent o) (requests : List Request) :
    (s.after requests).board.processing = s.board.processing := by
  induction requests generalizing s with
  | nil => rfl
  | cons r rest ih =>
    obtain ⟨hspent, hsame⟩ := h.answer r
    exact (ih hspent).trans hsame

end Spent

/-- The push that brings the header comes to what that comes to. -/
theorem ensures_push_of_pushFirst {chunk : Bytes} {good : Unit → Session → Prop}
    (hphase : s.phase = .awaitingHeader)
    (h : Ensures (pushFirst chunk) s good (fun _ _ => True)) :
    Ensures (push chunk true) s good (fun _ _ => True) := by
  simp only [push, ensures_onError, ensures_bind, ensures_get, hphase]
  exact h

end Session

theorem CryptoMode.isPaired_iff {m : CryptoMode} :
    m.isPaired ↔ .aesCbcDecrypt ∈ m.plan ∧ ∃ algorithm ∈ m.plan, algorithm.verifies := by
  cases m <;> decide

namespace Authenticator

variable {a : Authenticator} {type : BinaryType} {dest : Bytes} {s : Session}

open Session

/-- **A payload that comes whole with its header is fed once.** If the first push succeeds, the session
is for a short binary exactly if the outer mode both decrypts and checks a signature and the chunk holds
the whole payload. If the chunk does, the calls that feed data during that push are, in order: one for
the signed section to each outer operation that checks a signature, one for all of the payload to each
outer operation unless the payload is empty, and then the same for the inner header if there is one, with
what the outer operations have made of its payload, which lies within the outer one. The operations are
those of the modes, in their order, and told apart by their numbers. Whatever is asked of the session
afterwards, nothing is fed any more. -/
theorem whole_payload_fed_once (hopen : (openSession type dest).outcome a = .ok s)
    (requests : List Session.Request) {chunk : Bytes}
    (hpush : (push chunk true).outcome (s.after requests) = .ok ()) :
    let t := s.after requests
    let t' := (push chunk true).final t
    ∃ outer, t'.chain.outer? = some outer ∧
      (t'.short = true ↔
        (.aesCbcDecrypt ∈ outer.mode.plan ∧ ∃ algorithm ∈ outer.mode.plan, algorithm.verifies) ∧
          Header.size + outer.size ≤ chunk.length) ∧
      (Header.size + outer.size ≤ chunk.length →
        (∃ calls : Trace, t'.board.trace = t.board.trace ++ calls ∧
          calls.processing = t'.chain.calls ((chunk.drop Header.size).take outer.size)) ∧
        (∀ l ∈ t'.chain.layers, l.contexts.map Context.algorithm = l.mode.plan) ∧
        (∀ outer inner, t'.chain = .nested outer inner → Header.size + inner.size ≤ outer.size) ∧
        (t'.chain.contexts.map Context.id).Nodup ∧
        ∀ later, (t'.after later).board.processing = t'.board.processing) := by
  intro t t'
  obtain ⟨hopened, -⟩ := awaits_of_openSession hopen
  have hphase : t.phase = .awaitingHeader := by
    rcases order_of_push hpush with ⟨hphase, -⟩ | ⟨-, hfirst⟩
    · exact hphase
    · cases hfirst
  obtain ⟨-, policy, u, hawaits⟩ :=
    ((Coherent.awaiting hopened rfl).after requests).exists_awaits hphase
  have hat : t'.At s.opening policy chunk := (ensures_push_first hawaits chunk).outcome_ok hpush
  obtain ⟨e, hparse, hengaged⟩ :=
    (ensures_push_of_pushFirst hphase (ensures_pushFirst_engaged chunk t)).outcome_ok hpush
  obtain ⟨outer, houter, rfl⟩ := Option.map_eq_some_iff.mp hengaged.outer
  have hheader : Header.size ≤ chunk.length := (Header.length_of_parse hparse).1
  have hwhole : outer.envelope.size ≤ (chunk.drop Header.size).length ↔
      Header.size + outer.size ≤ chunk.length := by
    change outer.size ≤ _ ↔ _
    rw [List.length_drop]
    omega
  refine ⟨outer, houter, ?_, fun hall => ?_⟩
  · rw [hengaged.short_eq, Bool.and_eq_true, decide_eq_true_iff, hwhole, and_comm,
      ← CryptoMode.isPaired_iff]
    rfl
  · have hcapacity : t.window.capacity = t.dest.length := by rw [hawaits.window, hawaits.dest]
    have hfilled : t.window.filled = 0 := by rw [hawaits.window]
    have hfed : t'.FedOnce t.board.processing ((chunk.drop Header.size).take outer.size) :=
      (ensures_push_of_pushFirst hphase (ensures_pushFirst_calls hfilled hcapacity hparse
        (hwhole.mpr hall))).outcome_ok hpush
    refine ⟨?_, hfed.plan, hfed.inside, ?_, ?_⟩
    · obtain ⟨calls, hcalls, -⟩ := ((asks_push chunk true).final t).calls
      have hsplit : t'.board.processing = t.board.processing ++ calls.processing := by
        rw [Board.processing, hcalls, Trace.processing_append]
        rfl
      exact ⟨calls, hcalls, List.append_cancel_left (hsplit.symm.trans hfed.processing)⟩
    · obtain ⟨outline, v, -, -, hshows, -⟩ := hat
      exact hshows.ids_nodup
    · obtain ⟨outer', houter', hcursors⟩ := hat.cursors
      obtain rfl : outer' = outer := Option.some.inj (houter'.symm.trans houter)
      have hremaining : t'.remaining = 0 := by
        rw [hcursors.remaining]
        omega
      exact (Spent.complete hat hremaining).processing_after

/-- An encrypted payload of two and a half cipher blocks. -/
theorem whole_payload_fed_once_encrypted :
    let part := fresh .t234 (.fresh { FuseBank.blank with secure := true, info := some [5] } [])
      .disabled
    let chunk := (Header.blank .oemRsaEncrypted 40).bytes ++ List.replicate 40 7
    ∃ s, (openSession .mb1 (List.replicate 40 0)).outcome part = .ok s ∧
      (push chunk true).outcome s = .ok () ∧ ((push chunk true).final s).short = true := by
  intro part chunk
  obtain ⟨s, hopen, hpush, hlayer⟩ :
      ∃ s, (openSession .mb1 (List.replicate 40 0)).outcome part = .ok s ∧
        (push chunk true).outcome s = .ok () ∧
        ((push chunk true).final s).chain.outer?.map Layer.envelope =
          some ⟨.blank .oemRsaEncrypted 40, .oemRsaEncrypted⟩ :=
    ⟨_, rfl, by decide +kernel, by decide +kernel⟩
  obtain ⟨outer, houter, hshort, -⟩ := whole_payload_fed_once hopen [] hpush
  have henvelope : outer.envelope = ⟨.blank .oemRsaEncrypted 40, .oemRsaEncrypted⟩ := by
    rw [Session.after_nil] at houter
    rw [houter] at hlayer
    exact Option.some.inj hlayer
  have hmode : outer.mode = .oemRsaEncrypted := congrArg Envelope.mode henvelope
  have hsize : outer.size = 40 := (congrArg Envelope.size henvelope).trans (by decide +kernel)
  refine ⟨s, hopen, hpush, hshort.mpr ?_⟩
  rw [hmode, hsize]
  decide +kernel

end Authenticator

end SecureBoot
