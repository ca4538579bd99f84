import SecureBoot.Proofs.Defects
import SecureBoot.Proofs.Surplus

/-!
Pushes that come upon a defect. If it is in the header that the first chunk begins with, nothing has been
done yet and nothing is (`Session.Awaits.exec_push_defect`). If it is in a header inside, that has come to
light by running the outer operations, and this is all that has been done by then
(`Session.Beset`): no operation is set up for a header before the last of its checks.
-/

namespace SecureBoot

open Step

namespace Opening

variable (o : Opening)

/-- What an outermost header is held against. -/
def outerTerms : Terms := ⟨o.source, o.permitted, .capacity o.dest.length⟩

/-- What a header inside an envelope is held against. Its payload has to fit behind it, within that of
the envelope. -/
def innerTerms (e : Envelope) : Terms :=
  ⟨o.source, o.permitted.inside e.mode, .enclosing (e.size - Header.size)⟩

variable {o}

/-- A header that is refused settles that the envelope around it is, too. -/
theorem settled_of_refuses {e : Envelope} {payload : Bytes} {err : Error}
    (hlong : ¬ payload.length < min Header.size e.size)
    (h : o.Refuses (o.permitted.inside e.mode) (.enclosing (e.size - Header.size))
      (e.output o.ring payload) err) : o.settled e payload = .error err := by
  rw [settled_of_long hlong]
  cases h with
  | unread hparse => rw [hparse]
  | unclassified hparse hclassify =>
    rw [hparse]
    simp only [hclassify]
    rfl

end Opening

namespace Session

variable {o : Opening} {policy : NvidiaPolicy} {p : Progress} {t u : Trace} {s : Session}
  {image chunk : Bytes} {e : Envelope} {err : Error}

/-! ### The first header -/

theorem Awaits.ensures_pushFirst_defect (h : s.Awaits o policy t) {d : Defect}
    (hd : d.First o.outerTerms chunk) :
    Ensures (pushFirst chunk) s (fun _ _ => False)
      (fun e s' => e = d.error o.outerTerms ∧ s' = s) := by
  have hcapacity : s.window.capacity = o.dest.length := congrArg Window.capacity h.window
  simp only [pushFirst, ensures_bind, ensures_get, hcapacity]
  by_cases habsent : d = .absent
  · subst habsent
    rw [Header.parse_eq_none_iff.mpr hd.here]
    exact ⟨rfl, rfl⟩
  · cases Opening.refuses_of_first hd habsent with
    | unread hparse =>
      rw [hparse]
      exact ⟨rfl, rfl⟩
    | unclassified hparse hclassify =>
      rw [← h.permitted] at hclassify
      simp only [hparse, ensures_ofExcept_ok, ensures_bind]
      exact (ensures_accept_error h.toRooted hclassify 0).mono (fun _ _ hnever => hnever.elim)
        fun _ _ hsame => hsame

/-- **A defect in the first header** fails the push and changes nothing else. -/
theorem Awaits.exec_push_defect (h : s.Awaits o policy t) {d : Defect}
    (hd : d.First o.outerTerms chunk) :
    (push chunk true).exec s = (.error (d.error o.outerTerms), { s with phase := .failed }) := by
  apply Ensures.exec_eq_error
  simp only [push, ensures_onError, ensures_bind, ensures_get, h.phase]
  refine (h.ensures_pushFirst_defect hd).mono (fun _ _ hnever => hnever) ?_
  rintro _ s' ⟨rfl, rfl⟩
  exact ⟨rfl, rfl⟩

/-! ### A header inside -/

/-- The session has accepted an envelope and not what is inside. After the calls `t` it has only used
the operations of the envelope, by the calls `u`. -/
structure Beset (o : Opening) (policy : NvidiaPolicy) (e : Envelope) (t u : Trace) (s : Session) :
    Prop where
  shows : ∃ p : Progress, p.outline = .undecided e ∧ s.Shows o policy p (t ++ u)
  uses : u.Uses (s.chain.contexts.map Context.id)

theorem Shows.ensures_settle_refused (h : s.Shows o policy p t) (hp : p.Sound o)
    (hran : p.runOuter = p) (hout : p.outline = .undecided e)
    (hlong : ¬ p.raw.length < min Header.size e.size)
    (hrefuses : o.Refuses (o.permitted.inside e.mode) (.enclosing (e.size - Header.size))
      (e.output o.ring p.raw) err) :
    Ensures settle s (fun _ _ => False) (fun err' s' => err' = err ∧ s' = s) := by
  cases h.chain with
  | single hout' | nested hout' => cases hout.symm.trans hout'
  | undecided hout' hchain hl =>
    cases hout.symm.trans hout'
    obtain ⟨htells, hfront⟩ := h.front_of_undecided hp hran hout hl
    simp only [settle, ensures_bind, ensures_get, hchain, if_neg (mt htells.mp hlong), hfront hlong]
    have hpermitted : s.permitted = o.permitted.inside e.mode := by
      rw [h.permitted, hout]
      rfl
    cases hrefuses with
    | unread hparse =>
      rw [hparse]
      exact ⟨rfl, rfl⟩
    | unclassified hparse hclassify =>
      rw [← hpermitted] at hclassify
      simp only [hparse, ensures_ofExcept_ok, ensures_bind]
      exact (ensures_accept_error h.toRooted hclassify _).mono (fun _ _ hnever => hnever.elim)
        fun _ _ hsame => hsame

/-- A pump that comes upon a defect has run the outer operations and nothing else. -/
theorem Shows.ensures_pump_refused (h : s.Shows o policy p t) (hp : p.Sound o)
    (htreats : p.Treats o image) (hfaultless : ¬ o.board.Faulty) (hout : p.outline = .undecided e)
    (hlong : ¬ p.raw.length < min Header.size e.size)
    (hrefuses : o.Refuses (o.permitted.inside e.mode) (.enclosing (e.size - Header.size))
      (e.output o.ring p.raw) err) :
    Ensures pump s (fun _ _ => False) (fun err' s' => err' = err ∧ ∃ u, s'.Beset o policy e t u) := by
  simp only [pump, ensures_bind]
  refine (ensures_runOuter_uses h hp htreats).mono ?_ fun _ _ hbad => absurd hbad.1 hfaultless
  rintro _ s₁ ⟨u, hu, h₁⟩
  refine (h₁.ensures_settle_refused hp.runOuter rfl hout hlong hrefuses).mono
    (fun _ _ hnever => hnever.elim) ?_
  rintro _ s₂ ⟨rfl, rfl⟩
  have hsame : s₂.chain.contexts.map Context.operation = s.chain.contexts.map Context.operation := by
    rw [← h₁.operations, Trace.operations_append, hu.operations_eq_nil, List.append_nil, h.operations]
  have hids := congrArg (List.map Operation.id) hsame
  rw [List.map_map, List.map_map] at hids
  exact ⟨rfl, u, ⟨p.runOuter, hout, h₁⟩, hids ▸ hu⟩

theorem Shows.ensures_consume_refused (h : s.Shows o policy p t) (hp : p.Sound o)
    (hfaultless : ¬ o.board.Faulty) (hout : p.outline = .undecided e)
    (htreats : (p.take (chunk.take (p.outline.outer.size - p.raw.length))).Treats o image)
    (hlong : ¬ (e.payload image).length < min Header.size e.size)
    (hrefuses : o.Refuses (o.permitted.inside e.mode) (.enclosing (e.size - Header.size))
      (e.output o.ring (e.payload image)) err) :
    Ensures (consume chunk) s (fun _ _ => False)
      (fun err' s' => err' = err ∧ ∃ u, s'.Beset o policy e t u) := by
  refine h.ensures_consume_of_pump hp fun s' _ hp' h' => ?_
  have hraw := htreats.raw
  have hout' : (p.take (chunk.take (p.outline.outer.size - p.raw.length))).outline = .undecided e :=
    hout
  rw [hout'] at hraw
  exact h'.ensures_pump_refused hp' htreats hfaultless hout' (hraw ▸ hlong) (hraw ▸ hrefuses)

/-- The envelope has come with the same chunk as the defect. -/
theorem Awaits.ensures_pushFirst_refused (h : s.Awaits o policy t) (hfaultless : ¬ o.board.Faulty)
    (houter : o.outer chunk = .ok e) (hlong : ¬ (e.payload chunk).length < min Header.size e.size)
    (hrefuses : o.Refuses (o.permitted.inside e.mode) (.enclosing (e.size - Header.size))
      (e.output o.ring (e.payload chunk)) err) :
    Ensures (pushFirst chunk) s (fun _ _ => False)
      (fun err' s' => err' = err ∧ ∃ v u,
        ((accept e.header 0).final s).board.trace = s.board.trace ++ v ∧
        s'.Beset o policy e (t ++ v) u) := by
  obtain ⟨hparse, hclassify⟩ := Opening.outer_eq_ok_iff.mp houter
  have hcapacity : s.window.capacity = o.dest.length := congrArg Window.capacity h.window
  rw [← h.permitted] at hclassify
  simp only [pushFirst, ensures_bind, ensures_get, hcapacity, hparse, ensures_ofExcept_ok,
    ensures_modify]
  refine ((ensures_accept h.toRooted hclassify 0).and (ensures_exec (accept e.header 0) s)).mono ?_
    fun _ _ hbad => absurd hbad.1.1 hfaultless
  rintro l s₁ ⟨⟨platform, v, rfl, hrooted, hl, hops, -⟩, -, hfinal⟩
  have htrace : ((accept e.header 0).final s).board.trace = s.board.trace ++ v := by
    rw [hfinal, h.since.trace, List.append_assoc]
    exact hrooted.since.trace
  refine ((h.shows hrooted hl hops _).ensures_consume_refused (Progress.sound_of_outer houter)
    hfaultless rfl ⟨houter, rfl⟩ hlong hrefuses).mono (fun _ _ hnever => hnever) ?_
  rintro _ s₂ ⟨rfl, u, hbeset⟩
  exact ⟨rfl, v, u, htrace, hbeset⟩

/-- The envelope has come before. It was still undecided what is inside, or else the defect would have
shown then. -/
theorem At.ensures_consume_refused (h : s.At o policy image) (hfaultless : ¬ o.board.Faulty)
    (houter : o.outer (image ++ chunk) = .ok e)
    (hlong : ¬ (e.payload (image ++ chunk)).length < min Header.size e.size)
    (hrefuses : o.Refuses (o.permitted.inside e.mode) (.enclosing (e.size - Header.size))
      (e.output o.ring (e.payload (image ++ chunk))) err) :
    Ensures (consume chunk) s (fun _ _ => False)
      (fun err' s' => err' = err ∧ ∃ t u, s.board.trace = o.board.trace ++ t ∧
        s'.Beset o policy e t u) := by
  obtain ⟨outline, t, houtline, hp, hshows, -⟩ := h
  obtain ⟨houter', hsettled⟩ := Opening.outline_eq_ok_iff.mp houtline
  have hlength := (Opening.length_of_outer_eq_ok houter').1
  obtain rfl : outline.outer = e := by
    rw [Opening.outer_append hlength, houter'] at houter
    exact Except.ok.inj houter
  have hshort : (outline.outer.payload image).length < min Header.size outline.outer.size := by
    by_contra hsooner
    have hrefused := Opening.settled_of_refuses hlong hrefuses
    rw [Opening.settled_payload_append hlength hsooner, hsettled] at hrefused
    cases hrefused
  have hundecided : outline = .undecided outline.outer := by
    rw [Opening.settled_of_short hshort] at hsettled
    exact (Except.ok.inj hsettled).symm
  refine (hshows.ensures_consume_refused hp hfaultless hundecided
    ⟨houter, (outline.outer.payload_append hlength chunk).symm⟩ hlong hrefuses).mono
    (fun _ _ hnever => hnever) ?_
  rintro _ s' ⟨rfl, u, hbeset⟩
  exact ⟨rfl, t, u, hshows.since.trace, hbeset⟩

/-- What is to be seen of a session that has come upon a defect inside. -/
theorem Beset.exists_outer (h : s.Beset o policy e t u) :
    ∃ outer, s.chain = .undecided outer ∧ outer.header = e.header ∧ s.window.safe = 0 ∧
      s.board.trace = o.board.trace ++ t ++ u ∧ u.Uses (outer.contexts.map Context.id) ∧
      ∀ event ∈ t, ∀ id, event.subject? = some id → id ∈ outer.contexts.map Context.id := by
  obtain ⟨p, hout, hshows⟩ := h.shows
  cases hshows.chain with
  | single hout' | nested hout' => cases hout.symm.trans hout'
  | @undecided e' outer hout' hchain hl =>
    cases hout.symm.trans hout'
    have hids : Trace.operations (t ++ u) = outer.contexts.map Context.operation := by
      rw [hshows.operations, hchain, Chain.contexts_undecided]
    have huses := h.uses
    rw [hchain, Chain.contexts_undecided] at huses
    refine ⟨outer, hchain, hl.header, hshows.safe_eq_zero hout, ?_, huses, ?_⟩
    · rw [List.append_assoc]
      exact hshows.since.trace
    · intro event hevent id hid
      have hopened : Trace.Opened (t ++ u) id := by
        by_contra hnone
        exact hshows.since.orderly.subject_ne hnone (List.mem_append_left _ hevent) hid
      rw [Trace.opened_iff_mem, hids, List.map_map] at hopened
      exact hopened

/-- From `s` on, a push has come as far as `s'` and no further: to the outer header, with nothing of its
payload put out. The calls in `setup` are those for accepting that header, if the push has brought it,
and each call on an operation is on one of the outer header's. -/
structure StopsInside (outer : Layer) (setup calls : Trace) (s s' : Session) : Prop where
  chain : s'.chain = .undecided outer
  headers : s'.headerCount = 1
  safe : s'.safeLength = 0
  trace : s'.board.trace = s.board.trace ++ setup ++ calls
  accepted : s.phase = .awaitingHeader →
    ((accept outer.header 0).final s).board.trace = s.board.trace ++ setup
  nothing : s.phase = .processing → setup = []
  own : ∀ event ∈ setup, ∀ id, event.subject? = some id → id ∈ outer.contexts.map Context.id
  uses : calls.Uses (outer.contexts.map Context.id)

/-- **A defect inside** fails the push that brings it to light. -/
theorem Coherent.ensures_push_refused (h : s.Coherent o image) (hfaultless : ¬ o.board.Faulty)
    {first : Bool}
    (horder : s.phase = .awaitingHeader ∧ first = true ∨ s.phase = .processing ∧ first = false)
    (houter : o.outer (image ++ chunk) = .ok e)
    (hlong : ¬ (e.payload (image ++ chunk)).length < min Header.size e.size)
    (hrefuses : o.Refuses (o.permitted.inside e.mode) (.enclosing (e.size - Header.size))
      (e.output o.ring (e.payload (image ++ chunk))) err) :
    Ensures (Session.push chunk first) s (fun _ _ => False)
      (fun err' s' => err' = err ∧ ∃ outer setup calls,
        outer.header = e.header ∧ StopsInside outer setup calls s s') := by
  rcases horder with ⟨hphase, rfl⟩ | ⟨hphase, rfl⟩
  · obtain ⟨rfl, policy, t, hawaits⟩ := h.exists_awaits hphase
    simp only [Session.push, ensures_onError, ensures_bind, ensures_get, hphase]
    refine (hawaits.ensures_pushFirst_refused hfaultless houter hlong hrefuses).mono
      (fun _ _ hnever => hnever) ?_
    rintro _ s' ⟨rfl, v, u, haccepted, hbeset⟩
    obtain ⟨outer, hchain, hheader, hsafe, htrace, huses, hown⟩ := hbeset.exists_outer
    refine ⟨rfl, outer, v, u, hheader, ?_⟩
    exact
      { chain := hchain
        headers := by rw [headerCount, hchain]; rfl
        safe := hsafe
        trace := by
          rw [hawaits.since.trace, List.append_assoc o.board.trace]
          exact htrace
        accepted := fun _ => hheader ▸ haccepted
        nothing := by
          intro hprocessing
          cases hphase.symm.trans hprocessing
        own := fun event hevent => hown event (List.mem_append_right _ hevent)
        uses := huses }
  · obtain ⟨policy, hat⟩ := h.exists_at hphase
    simp only [Session.push, ensures_onError, ensures_bind, ensures_get, hphase]
    refine (hat.ensures_consume_refused hfaultless houter hlong hrefuses).mono
      (fun _ _ hnever => hnever) ?_
    rintro _ s' ⟨rfl, t, u, hbefore, hbeset⟩
    obtain ⟨outer, hchain, hheader, hsafe, htrace, huses, -⟩ := hbeset.exists_outer
    refine ⟨rfl, outer, [], u, hheader, ?_⟩
    exact
      { chain := hchain
        headers := by rw [headerCount, hchain]; rfl
        safe := hsafe
        trace := by
          rw [hbefore, List.append_nil]
          exact htrace
        accepted := by
          intro hawaiting
          cases hphase.symm.trans hawaiting
        nothing := fun _ => rfl
        own := fun _ hevent => absurd hevent List.not_mem_nil
        uses := huses }

end Session

namespace Authenticator

variable {a : Authenticator} {type : BinaryType} {dest : Bytes} {s : Session}

open Session

/-- **Bad headers fail fast.** Whatever has been asked of a session, if it awaits its header and is
pushed a chunk that does not begin with a good one, then the push fails with the error for the first
defect: no call is made, no header is accepted and nothing else is changed. If the defect is in a header
inside and no faults strike the engine, then the push that brings it to light fails with the error for
the first defect, too. It has set up nothing but the operations of the outer header, if that has come
with the same chunk, it has used no other operations, and nothing is output. -/
theorem defects_fail_fast (hopen : (openSession type dest).outcome a = .ok s)
    (requests : List Session.Request) (chunk : Bytes) :
    let t := s.after requests
    let o := s.opening
    let image := pushed requests ++ chunk
    (t.phase = .awaitingHeader → ∀ d : Defect, d.In o.outerTerms chunk →
      ∃ d' : Defect, d'.First o.outerTerms chunk ∧ t.headerCount = 0 ∧
        (push chunk true).exec t = (.error (d'.error o.outerTerms), { t with phase := .failed })) ∧
    (¬ a.board.Faulty → ∀ (e : Envelope) (first : Bool),
      let inside := e.output o.ring (e.payload image)
      t.phase = .awaitingHeader ∧ first = true ∨ t.phase = .processing ∧ first = false →
      o.outer image = .ok e → min Header.size e.size ≤ inside.length → Header.Announced inside →
      ∀ d : Defect, d.In (o.innerTerms e) inside →
      ∃ d' : Defect, d'.First (o.innerTerms e) inside ∧
        (push chunk first).outcome t = .error (d'.error (o.innerTerms e)) ∧
        ∃ outer setup calls, outer.header = e.header ∧
          StopsInside outer setup calls t ((push chunk first).final t)) := by
  intro t o image
  obtain ⟨hawaits, hfaults⟩ := awaits_of_openSession hopen
  have hcoherent : t.Coherent o (pushed requests) := (Coherent.awaiting hawaits rfl).after requests
  constructor
  · intro hphase d hd
    obtain ⟨d', hfirst⟩ := hd.exists_first
    obtain ⟨-, policy, u, hstill⟩ := hcoherent.exists_awaits hphase
    have hnone : t.headerCount = 0 := by
      rw [headerCount, hstill.chain]
      rfl
    exact ⟨d', hfirst, hnone, hstill.exec_push_defect hfirst⟩
  · intro hfaultless e first inside horder houter hlong hannounced d hd
    obtain ⟨d', hfirst⟩ := hd.exists_first
    have hpresent : d' ≠ .absent := by
      rintro rfl
      exact hfirst.here hannounced
    have hsound : ¬ o.board.Faulty := fun ⟨f, hf, hcall⟩ => hfaultless ⟨f, hfaults ▸ hf, hcall⟩
    rw [Envelope.length_output] at hlong
    have hensures := hcoherent.ensures_push_refused hsound horder houter (Nat.not_lt.mpr hlong)
      (Opening.refuses_of_first hfirst hpresent)
    cases hout : (push chunk first).outcome t with
    | ok a => exact (hensures.outcome_ok hout).elim
    | error err =>
      obtain ⟨rfl, hstops⟩ := hensures.outcome_error hout
      exact ⟨d', hfirst, rfl, hstops⟩

/-- No header at all, and one that is cut off by the end of the payload around it. -/
theorem defects_fail_fast_token :
    let a := fresh .t194 (.fresh .blank []) .disabled
    let header := Header.blank .oemRsa 4
    let chunk := header.bytes ++ gshvMagic
    ∃ s, (openSession .rollbackToken (List.replicate 4 0)).outcome a = .ok s ∧
      (push [] true).exec s = (.error .notFound, { s with phase := .failed }) ∧
      (push chunk true).outcome s = .error .invalid ∧
      ∃ outer setup calls, outer.header = header ∧
        StopsInside outer setup calls s ((push chunk true).final s) := by
  intro a header chunk
  obtain ⟨s, hopen, hphase, houter, hinside⟩ :
      ∃ s, (openSession .rollbackToken (List.replicate 4 0)).outcome a = .ok s ∧
        s.phase = .awaitingHeader ∧ s.opening.outer chunk = .ok ⟨header, .oemRsa⟩ ∧
        Envelope.output s.opening.ring ⟨header, .oemRsa⟩ (Envelope.payload ⟨header, .oemRsa⟩ chunk) =
          gshvMagic :=
    ⟨_, rfl, by decide +kernel, by decide +kernel, by decide +kernel⟩
  have hnothing : ¬ Header.Announced [] := by decide
  have hannounced : Header.Announced gshvMagic := by decide
  have hshort : gshvMagic.length < Header.size := by decide
  obtain ⟨d, hfirst, -, hexec⟩ := (defects_fail_fast hopen [] []).1 hphase .absent hnothing
  have habsent : d = .absent := by
    have hrank := hfirst.earlier .absent hnothing
    revert hrank
    cases d <;> decide
  have hnested := (defects_fail_fast hopen [] chunk).2 fun ⟨_, hf, _⟩ => absurd hf List.not_mem_nil
  simp only [pushed, List.flatMap_nil, List.nil_append] at hnested
  have hfails := hnested ⟨header, .oemRsa⟩ true (.inl ⟨hphase, rfl⟩) houter
  rw [hinside] at hfails
  obtain ⟨d', hfirst', herror, hstops⟩ := hfails (by decide +kernel) hannounced .truncated hshort
  have htruncated : d' = .truncated := by
    have hrank := hfirst'.earlier .truncated hshort
    have hpresent : d' ≠ .absent := by
      rintro rfl
      exact hfirst'.here hannounced
    revert hrank hpresent
    cases d' <;> decide
  subst habsent htruncated
  exact ⟨s, hopen, hexec, herror, hstops⟩

end Authenticator

end SecureBoot
