import SecureBoot.Proofs.Accepting

/-!
What a push does. Each part of it makes its move on the progress of the session: `ensures_runOuter`,
`ensures_settle`, `ensures_runInner`, `ensures_commit`, all four in `ensures_pump`, taking up payload
in `ensures_consume`. So a session that has taken in an image stands where that image leads to,
whatever the chunks were (`ensures_push_first`, `ensures_push_next`), and a push fails without a fault
only if the image is refused or the push is out of order (`ensures_push_invalid`).
-/

namespace SecureBoot.Window

theorem ensures_fill {w : Window} {n : Nat} (h : w.filled + n ≤ w.capacity) :
    Step.Ensures (fill n) w
      (fun extent w' => extent.start = w.filled ∧ w' = { w with filled := w.filled + n })
      (fun _ _ => False) := by
  unfold Step.Ensures
  rw [run_fill, if_pos h]
  exact ⟨rfl, rfl⟩

theorem ensures_commit {w : Window} {position : Nat}
    (h : w.safe ≤ position ∧ position ≤ w.filled) :
    Step.Ensures (commit position) w (fun _ w' => w' = { w with safe := position })
      (fun _ _ => False) := by
  unfold Step.Ensures
  rw [run_commit, if_pos h]

end SecureBoot.Window

namespace SecureBoot.Session

variable {o : Opening} {policy : NvidiaPolicy} {p : Progress} {t : Trace} {s : Session}
  {image : Bytes}

/-! ### Running one layer -/

/-- Running a layer replaces the next piece of the destination by what its operations make of it. -/
theorem ensures_runLayer {e : Envelope} {l : Layer} {start available : Nat} {input x a c : Bytes}
    (hs : Board.Since o.board s.platform.board t) (hl : l.Serves t o.ring e start input)
    (hnodup : (l.contexts.map Context.id).Nodup) (hx : l.runnable available = x.length)
    (hdest : s.dest = a ++ x ++ c) (ha : a.length = start + input.length)
    (hfit : input.length + x.length ≤ e.size)
    (hgranule : input.length + x.length < e.size → e.mode.granule ∣ x.length) :
    Step.Ensures (runLayer l available) s
      (fun l' s' => ∃ b u, s' = { s with
            platform := { s.platform with board := b }
            dest := a ++ transformAll (e.jobs o.ring) input.length x ++ c } ∧
        Board.Since o.board b (t ++ u) ∧ Trace.Uses u (l.contexts.map Context.id) ∧
        l'.Serves (t ++ u) o.ring e start (input ++ x) ∧
        l'.contexts.map Context.operation = l.contexts.map Context.operation)
      (fun _ s' => o.board.Faulty ∧ s'.chain = s.chain ∧
        ∃ u, Board.Since o.board s'.platform.board (t ++ u) ∧
          Trace.Uses u (l.contexts.map Context.id) ∧
          List.Forall₂ (Operation.Keeps (t ++ u)) (l.contexts.map Context.operation)
            (e.strands o.ring (input ++ x))) := by
  unfold runLayer
  by_cases hzero : l.runnable available = 0
  · obtain rfl : x = [] := List.eq_nil_of_length_eq_zero (hx.symm.trans hzero)
    have hnothing : transformAll (e.jobs o.ring) input.length [] = [] :=
      List.eq_nil_of_length_eq_zero (by simp)
    simp only [hzero, if_pos, Step.ensures_pure]
    refine ⟨s.platform.board, [], ?_, ?_, Trace.uses_nil _, ?_, trivial⟩
    · rw [hnothing, ← hdest]
    · rwa [List.append_nil]
    · rwa [List.append_nil, List.append_nil]
  · have hpiece : slice s.dest l.safeEnd (l.runnable available) = x := by
      rw [hl.safeEnd_eq, ← ha, hx, hdest, slice_append]
    have hne : x ≠ [] := fun hnil => hzero (by rw [hx, hnil, List.length_nil])
    have hblock : ∀ j ∈ e.jobs o.ring, j.algorithm = .aesCbcDecrypt →
        input.length + x.length < e.size → x.length % 16 = 0 := by
      intro j hj hd hlt
      have hdvd := hgranule hlt
      rw [e.granule_of_mem_jobs o.ring hj hd] at hdvd
      exact Nat.mod_eq_zero_of_dvd hdvd
    simp only [if_neg hzero, Step.ensures_bind, onPiece, Step.ensures_focus, Step.ensures_pure,
      hpiece]
    apply (Bench.ensures_run (fun j hj => e.regionSize_of_mem_jobs o.ring hj) hs hl.serving hnodup
      hne hfit hblock).mono
    · rintro contexts ⟨b, piece⟩ ⟨rfl, hops, u, hb, hu, hserve⟩
      refine ⟨b, u, ?_, hb, hu, ?_, hops⟩
      · simp only
        rw [hdest, hl.safeEnd_eq, ← ha, overwrite_append (length_transformAll ..)]
      · exact
          { header := hl.header
            mode := hl.mode
            start_eq := hl.start_eq
            done := by rw [List.length_append, Layer.advance, hl.done, hx]
            serving := hserve }
    · rintro err w ⟨hfaulty, -, u, hb, hu, hkeeps⟩
      exact ⟨hfaulty, trivial, u, hb, hu, hkeeps⟩

/-- A session that has run some more of its payload through operations that it has. -/
theorem Shows.ran (h : s.Shows o policy p t) {q : Progress} {b : Board} {u : Trace} {ids : List Nat}
    {dest : Bytes} {chain : Chain} (hb : Board.Since o.board b (t ++ u)) (hu : u.Uses ids)
    (hout : q.outline = p.outline) (hraw : q.raw = p.raw) (hsafe : p.safe ≤ q.safe)
    (hdest : dest = q.buffer o.ring o.dest) (hchain : q.Carried (t ++ u) o.ring chain)
    (hops : chain.contexts.map Context.operation = s.chain.contexts.map Context.operation) :
    { s with
      platform := { s.platform with board := b }
      dest := dest
      chain := chain }.Shows o policy q (t ++ u) where
  since := hb
  subkeys := h.subkeys
  source := h.source
  keys := h.keys
  permitted := by
    rw [hout]
    exact h.permitted
  policy := h.policy
  phase := h.phase
  capacity := h.capacity
  filled := by
    rw [hraw]
    exact h.filled
  safe_le := Nat.le_trans h.safe_le hsafe
  dest := hdest
  chain := hchain
  operations := by
    rw [Trace.operations_append, hu.operations_eq_nil, List.append_nil, h.operations, hops]

/-! ### The outer layer -/

/-- Only the operations of the session are used to run the outer layer, and only a fault can stop
that. -/
theorem ensures_runOuter_uses (h : s.Shows o policy p t) (hp : p.Sound o)
    (htreats : p.Treats o image) :
    Step.Ensures runOuter s
      (fun _ s' => ∃ u, Trace.Uses u (s.chain.contexts.map Context.id) ∧
        s'.Shows o policy p.runOuter (t ++ u))
      (fun e s' => o.board.Faulty ∧ s'.Refused o image e) := by
  obtain ⟨l, houter, hl⟩ := h.chain.outer
  obtain ⟨a, c, ha, hbuffer, hbuffer'⟩ := hp.buffer_runOuter o.ring o.dest
  have hlen := hp.length_outerInput
  have hnext := hp.length_outerNext
  have hcontexts := Chain.contexts_eq houter
  have hnodup := h.ids_nodup
  rw [hcontexts, List.map_append] at hnodup
  have hrun : l.runnable s.window.filled = p.outerNext.length := by
    have hadd := hl.length_add_runnable (n := p.raw.length) (hlen ▸ hp.aligned)
      (hlen ▸ hp.outerDone_le) (hlen ▸ Nat.le_trans hp.outerDone_le hp.raw_le)
    rw [hlen, Nat.zero_add] at hadd
    rw [h.filled]
    exact Nat.add_left_cancel (hadd.trans hnext.symm)
  have hall : p.outerDone + p.outerNext.length ≤ p.outline.outer.size := by
    rw [hnext]
    exact Envelope.portion_le_size
  have hgranule : p.outerDone + p.outerNext.length < p.outline.outer.size →
      p.outline.outer.mode.granule ∣ p.outerNext.length :=
    Envelope.granule_dvd hp.aligned (hnext ▸ Envelope.aligned_portion _)
  have hinput := hp.outerInput_runOuter
  have hothers : ∀ c ∈ s.chain.innerContexts, c.id ∉ l.contexts.map Context.id :=
    fun c hc hid => List.disjoint_of_nodup_append hnodup hid (List.mem_map_of_mem hc)
  have hown : l.contexts.map Context.id ⊆ s.chain.contexts.map Context.id := by
    rw [hcontexts, List.map_append]
    exact List.subset_append_left ..
  simp only [runOuter, Step.ensures_bind, Step.ensures_get, houter, Step.ensures_modify]
  apply (ensures_runLayer h.since hl hnodup.of_append_left hrun (h.dest.trans hbuffer)
    (by rw [ha, hlen, Nat.zero_add]) (by rwa [hlen]) (by rwa [hlen])).mono
  · rintro l' s' ⟨b, u, rfl, hb, hu, hl', hops⟩
    refine ⟨u, hu.mono hown, h.ran hb hu rfl rfl ?_ ?_ ?_ ?_⟩
    · exact Progress.safe_mono rfl hp.outerDone_le_runOuter (Nat.le_refl _)
    · rw [hbuffer', ← hlen]
    · exact h.chain.withOuter hp (hinput ▸ hl') (h.chain.inner.frame hu hothers)
    · rw [hcontexts, Chain.contexts_withOuter houter, List.map_append, List.map_append, hops]
  · rintro e s' ⟨hfaulty, hchain, u, hb, hu, hkeeps⟩
    refine ⟨hfaulty, Accounted.refused (t := t ++ u) ?_ hfaulty⟩
    refine h.accounted_append hp.runOuter ⟨htreats.outer, htreats.raw⟩ hchain hb (hu.mono hown) ?_
    have hinner := (h.chain.inner.frame hu hothers).keeps_own
    rw [← hinput] at hkeeps
    rw [hcontexts, List.map_append, Progress.strands, hp.innerInput_runOuter]
    exact List.rel_append hkeeps hinner

theorem ensures_runOuter (h : s.Shows o policy p t) (hp : p.Sound o) (htreats : p.Treats o image) :
    Step.Ensures runOuter s (fun _ s' => ∃ t', s'.Shows o policy p.runOuter t')
      (fun e s' => s'.Refused o image e) :=
  (ensures_runOuter_uses h hp htreats).mono (fun _ _ ⟨u, _, hshows⟩ => ⟨t ++ u, hshows⟩)
    fun _ _ hbad => hbad.2

/-! ### The inside -/

theorem Shows.settle_same {outline : Outline} (h : s.Shows o policy p t)
    (hout : p.outline = outline) : s.Shows o policy (p.settle outline) t := by
  subst hout
  exact h

/-- Nothing is output before it is settled what is inside. -/
theorem Shows.safe_eq_zero {e : Envelope} (h : s.Shows o policy p t)
    (hout : p.outline = .undecided e) : s.window.safe = 0 := by
  have hsafe : p.safe = 0 := by rw [Progress.safe, hout]
  exact Nat.le_zero.mp (hsafe ▸ h.safe_le)

section Undecided

variable {e i : Envelope} {l : Layer}

theorem Shows.settle_single (h : s.Shows o policy p t) (hout : p.outline = .undecided e)
    (hl : l.Serves t o.ring e 0 p.outerInput) (hcontexts : s.chain.contexts = l.contexts) :
    { s with chain := .single l }.Shows o policy (p.settle (.single e)) t :=
  { h with
    permitted := by
      have hpermitted := h.permitted
      rw [hout] at hpermitted
      exact hpermitted
    safe_le := by
      have hzero := h.safe_eq_zero hout
      exact hzero.symm ▸ Nat.zero_le _
    dest := by
      rw [Progress.buffer_settle_single o.ring hout]
      exact h.dest
    chain := .single rfl rfl hl
    operations := by
      rw [h.operations, hcontexts, Chain.contexts_single] }

variable {m : Layer} {u : Trace}

theorem Shows.settle_nested (h : s.Shows o policy p t) (hp : p.Sound o)
    (hout : p.outline = .undecided e) (hchain : s.chain = .undecided l) {platform : Platform}
    (hrooted : { s with platform := platform, permitted := s.permitted.inside i.mode }.Rooted o
      (t ++ u))
    (hl : l.Serves (t ++ u) o.ring e 0 p.outerInput)
    (hm : m.Serves (t ++ u) o.ring i Header.size [])
    (hops : Trace.operations u = m.contexts.map Context.operation) :
    { s with
      platform := platform
      permitted := s.permitted.inside i.mode
      chain := .nested l m }.Shows o policy (p.settle (.nested e i)) (t ++ u) := by
  have hzero := hp.innerDone_eq_zero hout
  exact
    { since := hrooted.since
      subkeys := hrooted.subkeys
      source := hrooted.source
      keys := hrooted.keys
      permitted := by
        have hpermitted := h.permitted
        rw [hout] at hpermitted
        exact congrArg (fun all => ModeSet.inside all i.mode) hpermitted
      policy := h.policy
      phase := h.phase
      capacity := h.capacity
      filled := h.filled
      safe_le := by
        have hsafe := h.safe_eq_zero hout
        exact hsafe.symm ▸ Nat.zero_le _
      dest := by
        rw [Progress.buffer_settle_nested o.ring hout hzero]
        exact h.dest
      chain := .nested rfl rfl hl (Progress.innerInput_settle o.ring p _ hzero ▸ hm)
      operations := by
        rw [Trace.operations_append, hops, h.operations, hchain, Chain.contexts_undecided,
          Chain.contexts_nested, List.map_append] }

/-- A header that could not be accepted leaves the layers around it to be accounted for. -/
theorem Shows.accounted_undone (h : s.Shows o policy p t) (hp : p.Sound o)
    (htreats : p.Treats o image) (hout : p.outline = .undecided e)
    (hq : (p.settle (.nested e i)).Sound o) {s' : Session} (hchain : s'.chain = s.chain)
    (hs' : Board.Since o.board s'.platform.board (t ++ u)) (hu : u.Undone)
    (hhonours : Trace.Honours (t ++ u) u.operations (i.strands o.ring [])) :
    s'.Accounted o image (t ++ u) where
  since := hs'
  live_iff := fun id => by rw [hu.live_iff hs'.orderly, h.live_iff, hchain]
  ids_nodup := by
    rw [hchain]
    exact h.ids_nodup
  honours := by
    have hzero := hp.innerDone_eq_zero hout
    have hkeeps := (h.chain.serving.frame_undone hu hs'.orderly).keeps_own
    have hboth := hhonours.cons_forall₂ hkeeps
    rw [← Progress.strands_settle_nested o.ring hout hzero] at hboth
    have htreats' := htreats.settle (.nested e i) (by rw [hout]; rfl)
    rw [Trace.operations_append, h.operations]
    exact hboth.begin_with (htreats'.strands_begin hq)

end Undecided

/-- A header inside the outer payload is accepted, or the image is refused for it. -/
theorem ensures_accept_inner {e : Envelope} {l : Layer} (h : s.Shows o policy p t) (hp : p.Sound o)
    (htreats : p.Treats o image) (hran : p.runOuter = p) (hout : p.outline = .undecided e)
    (hchain : s.chain = .undecided l) (hl : l.Serves t o.ring e 0 p.outerInput) {inner : Header}
    (hsettled : o.settled e p.raw =
      (o.classify (o.permitted.inside e.mode) inner).map fun i => .nested e i) :
    Step.Ensures (accept inner Header.size) s
      (fun m s' => ∃ i t', o.settled e p.raw = .ok (.nested e i) ∧
        (p.settle (.nested e i)).Sound o ∧
        { s' with chain := .nested l m }.Shows o policy (p.settle (.nested e i)) t')
      (fun err s' => s'.Refused o image err) := by
  have he : p.outline.outer = e := by rw [hout]; rfl
  have houtline : o.outline image = o.settled e p.raw := by
    rw [Opening.outline_of_outer htreats.outer, htreats.raw, he]
  have hpermitted : s.permitted = o.permitted.inside e.mode := by
    rw [h.permitted, hout]
    rfl
  rw [← hpermitted] at hsettled
  cases hc : o.classify s.permitted inner with
  | error err =>
    rw [hc] at hsettled
    refine (ensures_accept_error h.toRooted hc _).mono (fun _ _ hnever => hnever.elim) ?_
    rintro _ s' ⟨rfl, rfl⟩
    exact ⟨⟨t, h.accounted hp htreats⟩, fun _ => houtline.trans hsettled⟩
  | ok i =>
    rw [hc] at hsettled
    have hq : (p.settle (.nested e i)).Sound o := by
      refine hp.settle hran (by rw [hout]; rfl) ?_
      rw [he]
      exact hsettled
    apply (ensures_accept h.toRooted hc _).mono
    · rintro m s' ⟨platform, u, rfl, hrooted, hm, hops, hframe⟩
      exact ⟨i, t ++ u, hsettled, hq,
        h.settle_nested hp hout hchain hrooted (hl.frame (hframe _ _ hl.serving)) hm hops⟩
    · rintro err s' ⟨hfaulty, platform, u, rfl, hs', hu, hhonours⟩
      refine Accounted.refused (t := t ++ u) ?_ hfaulty
      exact h.accounted_undone hp htreats hout hq rfl hs' hu hhonours

/-- What tells whether a header is inside is the front of what the outer operations make of the
payload. -/
theorem Shows.front_of_undecided (h : s.Shows o policy p t) (hp : p.Sound o) (hran : p.runOuter = p)
    {e : Envelope} {l : Layer} (hout : p.outline = .undecided e)
    (hl : l.Serves t o.ring e 0 p.outerInput) :
    (l.done < Header.size ∧ l.done < l.size ↔ p.raw.length < min Header.size e.size) ∧
      (¬ p.raw.length < min Header.size e.size →
        Header.parse (slice s.dest l.start (min l.done Header.size))
            (.enclosing (l.size - Header.size)) =
          Header.parse (e.output o.ring p.raw) (.enclosing (e.size - Header.size))) := by
  have he : p.outline.outer = e := congrArg Outline.outer hout
  have hdone : e.portion p.raw.length = p.outerDone := he ▸ congrArg Progress.outerDone hran
  have hldone : l.done = p.outerDone := hl.done.trans hp.length_outerInput
  rw [hldone, hl.size_eq, hl.start_eq, h.dest]
  have hshort : p.outerDone < Header.size ∧ p.outerDone < e.size ↔
      p.raw.length < min Header.size e.size := by rw [← hdone, Envelope.portion_lt_iff]
  exact ⟨hshort, fun hlong => hp.parse_front hout (mt hshort.mp hlong) _⟩

theorem ensures_settle (h : s.Shows o policy p t) (hp : p.Sound o) (htreats : p.Treats o image)
    (hran : p.runOuter = p) :
    Step.Ensures settle s
      (fun _ s' => ∃ outline t', o.outline image = .ok outline ∧ outline.outer = p.outline.outer ∧
        (p.settle outline).Sound o ∧ s'.Shows o policy (p.settle outline) t')
      (fun e s' => s'.Refused o image e) := by
  have houtline : o.outline image = o.settled p.outline.outer p.raw := by
    rw [Opening.outline_of_outer htreats.outer, htreats.raw]
  have haccounted := h.accounted hp htreats
  cases h.chain with
  | @single e l hout hchain hl =>
    have hs := hp.settled.resolve_left (by simp [hout])
    simp only [settle, Step.ensures_bind, Step.ensures_get, hchain, Step.ensures_pure]
    exact ⟨p.outline, t, houtline.trans hs, rfl, hp, h⟩
  | @nested e i l m hout hchain hl hm =>
    have hs := hp.settled.resolve_left (by simp [hout])
    simp only [settle, Step.ensures_bind, Step.ensures_get, hchain, Step.ensures_pure]
    exact ⟨p.outline, t, houtline.trans hs, rfl, hp, h⟩
  | @undecided e l hout hchain hl =>
    have he : p.outline.outer = e := by rw [hout]; rfl
    rw [he] at houtline
    obtain ⟨htells, hfront⟩ := h.front_of_undecided hp hran hout hl
    simp only [settle, Step.ensures_bind, Step.ensures_get, hchain, htells]
    by_cases hshort : p.raw.length < min Header.size e.size
    · rw [if_pos hshort]
      exact ⟨.undecided e, t, houtline.trans (Opening.settled_of_short hshort), he.symm,
        hp.settle_same hout, h.settle_same hout⟩
    · rw [if_neg hshort, hfront hshort, hl.start_eq]
      rw [Opening.settled_of_long hshort] at houtline
      cases hfound : Header.parse (e.output o.ring p.raw) (.enclosing (e.size - Header.size)) with
      | error err =>
        rw [hfound] at houtline
        exact ⟨⟨t, haccounted⟩, fun _ => houtline⟩
      | ok found =>
        cases found with
        | none =>
          rw [hfound] at houtline
          have hsettled : o.settled p.outline.outer p.raw = .ok (.single e) := by
            rw [he, Opening.settled_of_long hshort, hfound]
          have hcontexts : s.chain.contexts = l.contexts := by
            rw [hchain, Chain.contexts_undecided]
          exact ⟨.single e, t, houtline, he.symm, hp.settle hran (by rw [hout]; rfl) hsettled,
            h.settle_single hout hl hcontexts⟩
        | some inner =>
          have hsettled : o.settled e p.raw =
              (o.classify (o.permitted.inside e.mode) inner).map fun i => .nested e i := by
            rw [Opening.settled_of_long hshort, hfound]
          rw [hfound] at houtline
          simp only [Step.ensures_bind, Step.ensures_ofExcept_ok, Step.ensures_modify, Nat.zero_add]
          refine (ensures_accept_inner h hp htreats hran hout hchain hl hsettled).mono ?_
            fun _ _ hrefused => hrefused
          rintro m s' ⟨i, t', hnested, hq, hshows⟩
          exact ⟨.nested e i, t', houtline.trans (hsettled.symm.trans hnested), he.symm, hq, hshows⟩

/-! ### The inner layer -/

theorem ensures_runInner (h : s.Shows o policy p t) (hp : p.Sound o) (htreats : p.Treats o image) :
    Step.Ensures runInner s (fun _ s' => ∃ t', s'.Shows o policy p.runInner t')
      (fun e s' => s'.Refused o image e) := by
  cases h.chain with
  | undecided hout hchain hl =>
    rw [hp.runInner_eq (by simp [hout])]
    simp only [runInner, Step.ensures_bind, Step.ensures_get, hchain, Step.ensures_pure]
    exact ⟨t, h⟩
  | single hout hchain hl =>
    rw [hp.runInner_eq (by simp [hout])]
    simp only [runInner, Step.ensures_bind, Step.ensures_get, hchain, Step.ensures_pure]
    exact ⟨t, h⟩
  | @nested e i l m hout hchain hl hm =>
    obtain ⟨a, c, ha, hbuffer, hbuffer'⟩ := hp.buffer_runInner hout o.ring o.dest
    have hlen := hp.length_innerInput o.ring
    have hnext := hp.length_innerNext o.ring
    have hinput := hp.innerInput_runInner o.ring
    have hinner := hp.inner
    rw [hout] at hinner
    obtain ⟨haligned, hsize, hheader⟩ := hinner
    have hcontexts : s.chain.contexts = l.contexts ++ m.contexts := by
      rw [hchain, Chain.contexts_nested]
    have hnodup := h.ids_nodup
    rw [hcontexts, List.map_append] at hnodup
    have hothers : ∀ c ∈ l.contexts, c.id ∉ m.contexts.map Context.id :=
      fun c hc hid => List.disjoint_of_nodup_append hnodup (List.mem_map_of_mem hc) hid
    have hportion : p.runInner.innerDone = i.portion (p.outerDone - Header.size) := by
      simp only [Progress.runInner, hout]
    have havailable : l.safeEnd = Header.size + (p.outerDone - Header.size) := by
      rw [hl.safeEnd_eq, hp.length_outerInput]
      omega
    have hrun : m.runnable l.safeEnd = (p.innerNext o.ring).length := by
      have hadd := hm.length_add_runnable (n := p.outerDone - Header.size) (hlen ▸ haligned)
        (by rw [hlen]; omega) (hlen ▸ hsize)
      rw [← havailable, hlen, ← hportion] at hadd
      exact Nat.add_left_cancel (hadd.trans hnext.symm)
    have hall : p.innerDone + (p.innerNext o.ring).length ≤ i.size := by
      rw [hnext, hportion]
      exact Envelope.portion_le_size
    have hgranule : p.innerDone + (p.innerNext o.ring).length < i.size →
        i.mode.granule ∣ (p.innerNext o.ring).length :=
      Envelope.granule_dvd haligned (by rw [hnext, hportion]; exact Envelope.aligned_portion _)
    simp only [runInner, Step.ensures_bind, Step.ensures_get, hchain, Step.ensures_modify]
    apply (ensures_runLayer h.since hm hnodup.of_append_right hrun (h.dest.trans hbuffer)
      (by rw [ha, hlen]) (by rwa [hlen]) (by rwa [hlen])).mono
    · rintro m' s' ⟨b, u, rfl, hb, hu, hm', hops⟩
      refine ⟨t ++ u, h.ran hb hu rfl rfl ?_ ?_ ?_ ?_⟩
      · exact Progress.safe_mono rfl (Nat.le_refl _) hp.innerDone_le_runInner
      · rw [hbuffer', ← hlen]
      · exact .nested hout rfl (hl.frame (hl.serving.frame hu hothers)) (hinput ▸ hm')
      · rw [hcontexts, Chain.contexts_nested, List.map_append, List.map_append, hops]
    · rintro err s' ⟨hfaulty, hchain', u, hb, hu, hkeeps⟩
      refine Accounted.refused (t := t ++ u) ?_ hfaulty
      refine h.accounted_append hp.runInner ⟨htreats.outer, htreats.raw⟩ hchain' hb (hu.mono ?_) ?_
      · rw [hcontexts, List.map_append]
        exact List.subset_append_right ..
      · have houter := (Serving.frame hl.serving hu hothers).keeps_own
        have hstrands : p.runInner.strands o.ring =
            e.strands o.ring p.outerInput ++ i.strands o.ring (p.runInner.innerInput o.ring) := by
          have hout' : p.runInner.outline = .nested e i := hout
          rw [Progress.strands, hout']
          rfl
        rw [hcontexts, List.map_append, hstrands, hinput]
        exact List.rel_append houter hkeeps

/-! ### Output -/

theorem ensures_commit (h : s.Shows o policy p t) (hp : p.Sound o) :
    Step.Ensures commit s (fun _ s' => s'.Shows o policy p t ∧ s'.window.safe = p.safe)
      (fun _ _ => False) := by
  have hchain := h.chain.safe?_eq hp rfl
  have hbounds : s.window.safe ≤ p.safe ∧ p.safe ≤ s.window.filled := by
    refine ⟨h.safe_le, ?_⟩
    rw [h.filled]
    exact Nat.le_trans p.safe_le hp.outerDone_le
  simp only [commit, Step.ensures_bind, Step.ensures_get]
  cases hsafe : s.chain.safe? with
  | none =>
    refine ⟨h, ?_⟩
    cases hout : p.outline with
    | undecided e => rw [h.safe_eq_zero hout, Progress.safe, hout]
    | single e => rw [hsafe, hout] at hchain; cases hchain
    | nested e i => rw [hsafe, hout] at hchain; cases hchain
  | some safe =>
    obtain rfl : safe = p.safe := by
      rw [hsafe] at hchain
      cases hout : p.outline <;> rw [hout] at hchain <;> cases hchain <;> rfl
    simp only [onWindow, Step.ensures_focus]
    refine (Window.ensures_commit hbounds).mono ?_ fun _ _ hnever => hnever
    rintro _ w rfl
    exact ⟨{ h with safe_le := Nat.le_refl _ }, rfl⟩

/-! ### All of it -/

/-- **Running everything there is**: a session goes wherever its image leads to. -/
theorem ensures_pump (h : s.Shows o policy p t) (hp : p.Sound o) (htreats : p.Treats o image) :
    Step.Ensures pump s (fun _ s' => s'.At o policy image) (fun e s' => s'.Refused o image e) := by
  have htreats' : p.runOuter.Treats o image := ⟨htreats.outer, htreats.raw⟩
  simp only [pump, Step.ensures_bind]
  refine (ensures_runOuter h hp htreats).mono ?_ fun _ _ hbad => hbad
  rintro _ s₁ ⟨t₁, h₁⟩
  refine (ensures_settle h₁ hp.runOuter htreats' rfl).mono ?_ fun _ _ hbad => hbad
  rintro _ s₂ ⟨outline, t₂, houtline, hout, hp₂, h₂⟩
  refine (ensures_runInner h₂ hp₂ (htreats'.settle outline hout)).mono ?_ fun _ _ hbad => hbad
  rintro _ s₃ ⟨t₃, h₃⟩
  refine (ensures_commit h₃ hp₂.runInner).mono ?_ fun _ _ hnever => hnever.elim
  rintro _ s₄ ⟨h₄, hsafe⟩
  have hraw : p.raw = outline.outer.payload image :=
    htreats.raw.trans (congrArg (Envelope.payload · image) hout.symm)
  have hend : (p.runOuter.settle outline).runInner =
      .reached outline (outline.outer.payload image) := by
    rw [Progress.runInner_settle_runOuter (p := p) hout, hraw]
  rw [hend] at h₄ hsafe
  exact ⟨outline, t₃, houtline, hend ▸ hp₂.runInner, h₄, hsafe⟩

/-- What is missing of the payload. -/
theorem Shows.remaining_eq (h : s.Shows o policy p t) :
    s.remaining = p.outline.outer.size - p.raw.length := by
  obtain ⟨l, houter, hl⟩ := h.chain.outer
  rw [remaining, houter]
  change l.size - s.window.filled = _
  rw [hl.size_eq, h.filled]

/-- A session that has taken up more of its payload but not run it yet. -/
theorem Shows.took (h : s.Shows o policy p t) (hp : p.Sound o) {taken : Bytes}
    (hfit : p.raw.length + taken.length ≤ p.outline.outer.size) :
    { s with
      window := { s.window with filled := s.window.filled + taken.length }
      dest := overwrite s.dest s.window.filled taken }.Shows o policy (p.take taken) t where
  since := h.since
  subkeys := h.subkeys
  source := h.source
  keys := h.keys
  permitted := h.permitted
  policy := h.policy
  phase := h.phase
  capacity := h.capacity
  filled := by
    rw [Progress.take, List.length_append, ← h.filled]
  safe_le := h.safe_le
  dest := by
    rw [← hp.buffer_take o.ring (Nat.le_trans hfit hp.size_le), h.filled, h.dest]
  chain := h.chain.take hp _
  operations := h.operations

/-- **Taking up payload**, as much of it as is still missing: what is left to do is to run it. -/
theorem Shows.ensures_consume_of_pump (h : s.Shows o policy p t) (hp : p.Sound o) {chunk : Bytes}
    {good : Unit → Session → Prop} {bad : Error → Session → Prop}
    (hpump : ∀ s', s'.platform = s.platform →
      (p.take (chunk.take (p.outline.outer.size - p.raw.length))).Sound o →
      s'.Shows o policy (p.take (chunk.take (p.outline.outer.size - p.raw.length))) t →
      Step.Ensures pump s' good bad) :
    Step.Ensures (consume chunk) s good bad := by
  have hraw := hp.raw_le
  have hfit : p.raw.length + (chunk.take (p.outline.outer.size - p.raw.length)).length ≤
      p.outline.outer.size := by
    rw [List.length_take]
    omega
  have hspace : s.window.filled + (chunk.take (p.outline.outer.size - p.raw.length)).length ≤
      s.window.capacity := by
    rw [h.filled, h.capacity]
    exact Nat.le_trans hfit hp.size_le
  simp only [consume, Step.ensures_bind, Step.ensures_get, Step.ensures_modify, h.remaining_eq,
    onWindow, Step.ensures_focus]
  refine (Window.ensures_fill hspace).mono ?_ fun _ _ hnever => hnever.elim
  rintro extent w ⟨hextent, rfl⟩
  rw [hextent]
  exact hpump _ rfl (hp.take hfit) (h.took hp hfit)

/-- And so the session stands where the image with the chunk leads to. -/
theorem ensures_consume (h : s.Shows o policy p t) (hp : p.Sound o) {chunk : Bytes}
    (htreats : (p.take (chunk.take (p.outline.outer.size - p.raw.length))).Treats o image) :
    Step.Ensures (consume chunk) s (fun _ s' => s'.At o policy image)
      (fun e s' => s'.Refused o image e) :=
  h.ensures_consume_of_pump hp fun _ _ hp' h' => ensures_pump h' hp' htreats

/-! ### Pushes -/

/-- A header that has been accepted, with all of its payload still to come. -/
theorem Awaits.shows (h : s.Awaits o policy t) {e : Envelope} {l : Layer} {platform : Platform}
    {u : Trace}
    (hrooted : { s with platform := platform, permitted := s.permitted.inside e.mode }.Rooted o
      (t ++ u))
    (hl : l.Serves (t ++ u) o.ring e 0 [])
    (hops : Trace.operations u = l.contexts.map Context.operation) (short : Bool) :
    { s with
      platform := platform
      permitted := s.permitted.inside e.mode
      chain := .undecided l
      phase := .processing
      short := short }.Shows o policy ⟨.undecided e, [], 0, 0⟩ (t ++ u) where
  since := hrooted.since
  subkeys := hrooted.subkeys
  source := hrooted.source
  keys := hrooted.keys
  permitted := congrArg (fun all => ModeSet.inside all e.mode) h.permitted
  policy := h.policy
  phase := rfl
  capacity := congrArg Window.capacity h.window
  filled := congrArg Window.filled h.window
  safe_le := Nat.le_of_eq (congrArg Window.safe h.window)
  dest := by
    have hnothing : e.output o.ring [] = [] := List.eq_nil_of_length_eq_zero (by simp)
    change s.dest = e.output o.ring [] ++ [] ++ o.dest
    rw [hnothing]
    exact h.dest
  chain := .undecided rfl rfl hl
  operations := by
    rw [Trace.operations_append, h.operations, hops, Chain.contexts_undecided, List.nil_append]

theorem ensures_pushFirst (h : s.Awaits o policy t) (chunk : Bytes) :
    Step.Ensures (pushFirst chunk) s (fun _ s' => s'.At o policy chunk)
      (fun e s' => s'.Refused o chunk e) := by
  have haccounted := h.accounted chunk
  have hcapacity : s.window.capacity = o.dest.length := congrArg Window.capacity h.window
  simp only [pushFirst, Step.ensures_bind, Step.ensures_get, hcapacity]
  cases hfound : Header.parse chunk (.capacity o.dest.length) with
  | error err =>
    have houter : o.outer chunk = .error err := by
      unfold Opening.outer
      rw [hfound]
      rfl
    exact ⟨⟨t, haccounted⟩, fun _ => Opening.outline_of_outer_error houter⟩
  | ok found =>
    cases found with
    | none =>
      have houter : o.outer chunk = .error .notFound := by
        unfold Opening.outer
        rw [hfound]
        rfl
      exact ⟨⟨t, haccounted⟩, fun _ => Opening.outline_of_outer_error houter⟩
    | some header =>
      have houter : o.outer chunk = o.classify o.permitted header := by
        unfold Opening.outer
        rw [hfound]
        rfl
      simp only [Step.ensures_bind, Step.ensures_ofExcept_ok, Step.ensures_modify]
      rw [← h.permitted] at houter
      cases hc : o.classify s.permitted header with
      | error err =>
        rw [hc] at houter
        refine (ensures_accept_error h.toRooted hc _).mono (fun _ _ hnever => hnever.elim) ?_
        rintro _ s' ⟨rfl, rfl⟩
        exact ⟨⟨t, haccounted⟩, fun _ => Opening.outline_of_outer_error houter⟩
      | ok e =>
        rw [hc] at houter
        apply (ensures_accept h.toRooted hc 0).mono
        · rintro l s' ⟨platform, u, rfl, hrooted, hl, hops, -⟩
          exact ensures_consume (h.shows hrooted hl hops _) (Progress.sound_of_outer houter)
            ⟨houter, rfl⟩
        · rintro err s' ⟨hfaulty, platform, u, rfl, hs', hu, hhonours⟩
          refine Accounted.refused (t := t ++ u) ?_ hfaulty
          have hops : Trace.operations (t ++ u) = u.operations := by
            rw [Trace.operations_append, h.operations, List.nil_append]
          exact
            { since := hs'
              live_iff := fun id => (hu.live_iff hs'.orderly).trans (haccounted.live_iff id)
              ids_nodup := haccounted.ids_nodup
              honours := by
                rw [hops]
                exact hhonours.begin_with (Opening.strands_begin houter List.nil_prefix) }

/-- **The first push**: a session stands where the chunk leads to, or the chunk is refused. -/
theorem ensures_push_first (h : s.Awaits o policy t) (chunk : Bytes) :
    Step.Ensures (push chunk true) s (fun _ s' => s'.At o policy chunk)
      (fun e s' => s'.Refused o chunk e ∧ s'.phase = .failed) := by
  simp only [push, Step.ensures_onError, Step.ensures_bind, Step.ensures_get, h.phase]
  refine (ensures_pushFirst h chunk).mono (fun _ _ hgood => hgood) ?_
  rintro e s' ⟨⟨t, haccounted⟩, hrefused⟩
  exact ⟨⟨⟨t, { haccounted with }⟩, hrefused⟩, trivial⟩

/-- **Every other push** adds to the image that the session stands at. -/
theorem ensures_push_next (h : s.At o policy image) (chunk : Bytes) :
    Step.Ensures (push chunk false) s (fun _ s' => s'.At o policy (image ++ chunk))
      (fun e s' => s'.Refused o (image ++ chunk) e ∧ s'.phase = .failed) := by
  obtain ⟨outline, t, houtline, hp, hshows, -⟩ := h
  have houter := (Opening.outline_eq_ok_iff.mp houtline).1
  have hlength := (Opening.length_of_outer_eq_ok houter).1
  simp only [push, Step.ensures_onError, Step.ensures_bind, Step.ensures_get, hshows.phase]
  refine (ensures_consume hshows hp ⟨?_, ?_⟩).mono (fun _ _ hgood => hgood) ?_
  · exact (Opening.outer_append hlength chunk).trans houter
  · exact (outline.outer.payload_append hlength chunk).symm
  · rintro e s' ⟨⟨t, haccounted⟩, hrefused⟩
    exact ⟨⟨⟨t, { haccounted with }⟩, hrefused⟩, trivial⟩

/-- A push out of order is refused and changes nothing else. -/
theorem ensures_push_invalid {chunk : Bytes} {first : Bool}
    (h : s.phase = .awaitingHeader → first = false) (h' : s.phase = .processing → first = true) :
    Step.Ensures (push chunk first) s (fun _ _ => False)
      (fun e s' => e = .invalid ∧ s' = { s with phase := .failed }) := by
  simp only [push, Step.ensures_onError, Step.ensures_bind, Step.ensures_get]
  cases hphase : s.phase <;> cases first <;> simp_all

end SecureBoot.Session
