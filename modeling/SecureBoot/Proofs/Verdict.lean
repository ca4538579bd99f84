import SecureBoot.Proofs.Pushing
import SecureBoot.Session.Finalize

/-!
The verdict. `Opening.judgement` gives it on an image as a whole: the image has to be complete, the
NVIDIA policy has to be met, and each job has to find the tag that its header expects. A session that
has taken in the image comes to the same verdict (`ensures_finalize`), and whatever the verdict,
nothing is left open behind it (`contexts_release`, `Accounted.release`).
-/

namespace SecureBoot

namespace Outline

def innermost : Outline → Envelope
  | .undecided e | .single e => e
  | .nested _ i => i

/-- Where the innermost payload lies in the destination. -/
def extent : Outline → Extent
  | .undecided e | .single e => ⟨0, e.size⟩
  | .nested _ i => ⟨Header.size, Header.size + i.size⟩

/-- Which envelopes are signed by NVIDIA, outermost first. -/
def signed (outline : Outline) : List Bool := outline.envelopes.map fun e => e.mode = .nvidiaRsa

/-- What is known of an image with this outline once it has been found authentic. -/
def verified (outline : Outline) : Verified where
  image := outline.extent
  headers := outline.envelopes.length
  rollbackLevel := outline.innermost.header.rollbackLevel
  nvidiaSigned := outline.signed.any id

end Outline

/-- The verdict of a job that has been fed what it was to be fed. -/
def Strand.verdict (s : Strand) : Except Error Unit := s.job.verdict s.input

/-- Every job finds the tag that is expected. -/
def Unanimous (strands : List Strand) : Prop := ∀ s ∈ strands, s.verdict = .ok ()

theorem all_isOk_iff_unanimous {strands : List Strand} :
    (strands.all fun s => s.verdict.isOk) = true ↔ Unanimous strands := by
  rw [List.all_eq_true]
  refine forall₂_congr fun s _ => ?_
  cases s.verdict with
  | ok _ => exact ⟨fun _ => rfl, fun _ => rfl⟩
  | error e => exact ⟨fun h => absurd h Bool.false_ne_true, fun h => by cases h⟩

instance (strands : List Strand) : Decidable (Unanimous strands) :=
  decidable_of_iff _ all_isOk_iff_unanimous

theorem unanimous_append {strands strands' : List Strand} :
    Unanimous (strands ++ strands') ↔ Unanimous strands ∧ Unanimous strands' :=
  List.forall_mem_append

/-- The verdict on an image. -/
def Opening.judgement (o : Opening) (policy : NvidiaPolicy) (image : Bytes) :
    Except Error Verified :=
  match o.outline image with
  | .error e => .error e
  | .ok outline =>
    if (outline.outer.payload image).length < outline.outer.size then .error .invalid
    else if policy.isMet outline.signed ∧ Unanimous (o.strands image) then
      .ok outline.verified
    else .error .verifyFailed

section Judgement

variable {o : Opening} {policy : NvidiaPolicy} {image : Bytes} {outline : Outline}

theorem Opening.judgement_of_incomplete (h : o.outline image = .ok outline)
    (hshort : (outline.outer.payload image).length < outline.outer.size) :
    o.judgement policy image = .error .invalid := by
  simp only [judgement, h, if_pos hshort]

theorem Opening.judgement_of_complete (h : o.outline image = .ok outline)
    (hfull : ¬ (outline.outer.payload image).length < outline.outer.size) (policy : NvidiaPolicy) :
    o.judgement policy image =
      if policy.isMet outline.signed ∧ Unanimous (o.strands image) then
        .ok outline.verified
      else .error .verifyFailed := by
  simp only [judgement, h, if_neg hfull]

theorem Opening.judgement_eq_ok_iff {v : Verified} :
    o.judgement policy image = .ok v ↔ ∃ outline, o.outline image = .ok outline ∧
      outline.outer.size ≤ (outline.outer.payload image).length ∧
      (policy.isMet outline.signed ∧ Unanimous (o.strands image)) ∧
      outline.verified = v := by
  constructor
  · intro h
    cases hout : o.outline image with
    | error err =>
      simp only [judgement, hout] at h
      cases h
    | ok outline =>
      by_cases hshort : (outline.outer.payload image).length < outline.outer.size
      · rw [judgement_of_incomplete hout hshort] at h
        cases h
      · rw [judgement_of_complete hout hshort] at h
        split at h
        · rename_i hboth
          exact ⟨outline, rfl, Nat.le_of_not_lt hshort, hboth, Except.ok.inj h⟩
        · cases h
  · rintro ⟨outline, hout, hfull, hboth, rfl⟩
    rw [judgement_of_complete hout (Nat.not_lt.mpr hfull), if_pos hboth]

end Judgement

/-! ### Complete payload -/

/-- Jobs that are set up for a header and its payload have been fed their regions by the end. -/
theorem Header.length_of_mem_strands {h : Header} {jobs : List Job} {payload : Bytes} {s : Strand}
    (hs : s ∈ h.strands jobs payload)
    (hregion : ∀ j ∈ jobs, j.setup.regionSize = (h.lead j.algorithm).length + payload.length) :
    s.input.length = s.job.setup.regionSize := by
  induction jobs generalizing payload with
  | nil => cases hs
  | cons j jobs ih =>
    rcases List.mem_cons.mp hs with rfl | hs
    · rw [List.length_append]
      exact (hregion j (List.mem_cons_self ..)).symm
    · apply ih hs
      intro k hk
      rw [Job.length_transform]
      exact hregion k (List.mem_cons_of_mem _ hk)

theorem Envelope.length_of_mem_strands {ring : KeyRing} {e : Envelope} {payload : Bytes} {s : Strand}
    (hs : s ∈ e.strands ring payload) (hpayload : payload.length = e.size) :
    s.input.length = s.job.setup.regionSize :=
  Header.length_of_mem_strands hs fun j hj => by rw [e.regionSize_of_mem_jobs ring hj, hpayload]

namespace Progress

variable {o : Opening} {outline : Outline} {raw : Bytes}

section Complete

variable (hs : o.settled outline.outer raw = .ok outline) (hraw : raw.length = outline.outer.size)
include hs hraw

theorem not_undecided_of_complete (e : Envelope) : outline ≠ .undecided e := by
  rintro rfl
  have hshort : raw.length < min Header.size e.size := Opening.settled_eq_undecided_iff.mp hs
  have hall : raw.length = e.size := hraw
  omega

theorem innerDone_of_complete {e i : Envelope} (hout : outline = .nested e i) :
    (reached outline raw).innerDone = i.size := by
  subst hout
  have hall : raw.length = e.size := hraw
  have hsize := (Opening.length_of_settled_nested hs (Nat.le_of_eq hraw)).2
  have hportion : e.portion raw.length = e.size := Envelope.portion_of_size_le (Nat.le_of_eq hall.symm)
  change i.portion (e.portion raw.length - Header.size) = i.size
  rw [hportion]
  exact Envelope.portion_of_size_le (Nat.le_sub_of_add_le' hsize)

omit hs in
theorem outerDone_of_complete : (reached outline raw).outerDone = raw.length := by
  change outline.outer.portion raw.length = raw.length
  rw [hraw]
  exact Envelope.portion_of_size_le (Nat.le_refl _)

/-- A payload that is complete is output as a whole. -/
theorem safe_of_complete : (reached outline raw).safe = outline.outer.size := by
  have hdone := outerDone_of_complete hraw
  cases hout : outline with
  | undecided e => exact absurd hout (not_undecided_of_complete hs hraw e)
  | single e =>
    subst hout
    exact hdone.trans hraw
  | nested e i =>
    have hinner := innerDone_of_complete hs hraw hout
    subst hout
    have hfinished : ¬ (reached (.nested e i) raw).innerDone < i.size := by omega
    have hsafe : (reached (.nested e i) raw).safe = (reached (.nested e i) raw).outerDone :=
      if_neg hfinished
    rw [hsafe, hdone]
    exact hraw

/-- And everything has been fed. -/
theorem strands_of_complete :
    (reached outline raw).strands o.ring =
      outline.strands o.ring raw (outline.within o.ring raw) := by
  have houter : (reached outline raw).outerInput = raw := by
    rw [outerInput, outerDone_of_complete hraw]
    exact List.take_length
  have hinner : (reached outline raw).innerInput o.ring = outline.within o.ring raw := by
    rw [innerInput, inside, houter]
    cases hout : outline with
    | undecided e => exact absurd hout (not_undecided_of_complete hs hraw e)
    | single e => exact List.take_zero
    | nested e i =>
      have hdone := innerDone_of_complete hs hraw hout
      rw [hout] at hdone
      rw [hdone]
      rfl
  rw [strands, houter, hinner]
  rfl

/-- And no job is short of anything. -/
theorem length_of_mem_strands {s : Strand} (hmem : s ∈ (reached outline raw).strands o.ring) :
    s.input.length = s.job.setup.regionSize := by
  rw [strands_of_complete hs hraw] at hmem
  rcases List.mem_append.mp hmem with hmem | hmem
  · exact Envelope.length_of_mem_strands hmem hraw
  · cases hout : outline with
    | undecided e => exact absurd hout (not_undecided_of_complete hs hraw e)
    | single e =>
      rw [hout] at hmem
      cases hmem
    | nested e i =>
      subst hout
      have hall : raw.length = e.size := hraw
      have hsize := (Opening.length_of_settled_nested hs (Nat.le_of_eq hraw)).2
      refine Envelope.length_of_mem_strands hmem ?_
      rw [Outline.within, List.length_take, Envelope.length_inside, hall]
      exact Nat.min_eq_left (Nat.le_sub_of_add_le' hsize)

end Complete

namespace Carried

variable {t : Trace} {ring : KeyRing} {p : Progress} {c : Chain}

theorem innermost (h : p.Carried t ring c) :
    ∃ m, c.innermost? = some m ∧ m.header = p.outline.innermost.header ∧
      m.extent = p.outline.extent := by
  cases h with
  | @undecided e l hout hchain hl =>
    rw [hout, hchain]
    exact ⟨l, rfl, hl.header, hl.extent_eq.trans (by rw [Nat.zero_add]; rfl)⟩
  | @single e l hout hchain hl =>
    rw [hout, hchain]
    exact ⟨l, rfl, hl.header, hl.extent_eq.trans (by rw [Nat.zero_add]; rfl)⟩
  | @nested e i l m hout hchain hl hm =>
    rw [hout, hchain]
    exact ⟨m, rfl, hm.header, hm.extent_eq⟩

theorem signed (h : p.Carried t ring c) : c.layers.map Layer.isNvidia = p.outline.signed := by
  have hlayer : ∀ {e : Envelope} {start : Nat} {input : Bytes} {l : Layer},
      l.Serves t ring e start input → l.isNvidia = decide (e.mode = .nvidiaRsa) := by
    intro e start input l hl
    rw [Layer.isNvidia, hl.mode]
  cases h with
  | undecided hout hchain hl =>
    rw [hout, hchain]
    exact congrArg (fun b => [b]) (hlayer hl)
  | single hout hchain hl =>
    rw [hout, hchain]
    exact congrArg (fun b => [b]) (hlayer hl)
  | nested hout hchain hl hm =>
    rw [hout, hchain]
    exact congrArg₂ (fun b b' => [b, b']) (hlayer hl) (hlayer hm)

end Carried

end Progress

theorem Serving.verdicts {t : Trace} {contexts : List Context} {strands : List Strand}
    (h : Serving t contexts strands)
    (hfull : ∀ s ∈ strands, s.input.length = s.job.setup.regionSize) :
    (∀ c ∈ contexts, c.verdict = .ok ()) ↔ Unanimous strands := by
  unfold Unanimous
  induction h with
  | nil => simp
  | cons hfed _ ih =>
    obtain ⟨hlen, hrest⟩ := List.forall_mem_cons.mp hfull
    rw [List.forall_mem_cons, List.forall_mem_cons, ih hrest, hfed.verdict_eq hlen]
    rfl

namespace Session

variable {o : Opening} {policy : NvidiaPolicy} {p : Progress} {t : Trace} {s : Session}
  {image : Bytes}

/-! ### Releasing -/

theorem contexts_release (s : Session) : s.release.chain.contexts = [] := by
  change (s.chain.map Layer.released).contexts = []
  cases s.chain <;> rfl

/-- A session that accounts for its operations can close them, and has then none left. -/
theorem Accounted.release (h : s.Accounted o image t) :
    s.release.Accounted o image (t ++ s.chain.contexts.map fun c => .close c.id) := by
  have hsince := h.since.closeAll
    (fun c hc => (h.live_iff c.id).mpr (List.mem_map_of_mem hc)) h.ids_nodup
  refine ⟨hsince, fun id => ?_, ?_, ?_⟩
  · rw [contexts_release]
    refine ⟨fun hlive => ?_, fun hid => absurd hid List.not_mem_nil⟩
    obtain ⟨hopened, hclosed⟩ := hlive
    have hopen : t.Live id := by
      refine ⟨?_, fun hc => hclosed (List.mem_append_left _ hc)⟩
      rwa [Trace.opened_iff_mem, Trace.operations_append, Trace.operations_closes, List.append_nil,
        ← Trace.opened_iff_mem] at hopened
    obtain ⟨c, hc, rfl⟩ := List.mem_map.mp ((h.live_iff id).mp hopen)
    exact absurd (List.mem_append_right _ (List.mem_map_of_mem hc)) hclosed
  · rw [contexts_release]
    exact List.nodup_nil
  · rw [Trace.operations_append, Trace.operations_closes, List.append_nil]
    exact h.honours.append fun op _ => Trace.fed_closes s.chain.contexts op.id

/-! ### Coming to the verdict -/

/-- Asking all operations for their verdicts, once they have been fed their regions. -/
theorem ensures_verdicts (h : s.Shows o policy p t) (haccounted : s.Accounted o image t)
    (hfull : ∀ strand ∈ p.strands o.ring, strand.input.length = strand.job.setup.regionSize) :
    Step.Ensures (onBoard (Board.finalizeAll s.chain.contexts)) s
      (fun _ s' => Unanimous (p.strands o.ring) ∧ s'.phase = s.phase ∧
        ∃ t, s'.Accounted o image t)
      (fun e s' => e = .verifyFailed ∧
        (o.board.faults = [] → ¬ Unanimous (p.strands o.ring)) ∧
        s'.phase = s.phase ∧ ∃ t, s'.Accounted o image t) := by
  have hserving := h.chain.serving
  have hfed : ∀ c ∈ s.chain.contexts, ∃ j data, c.Fed t j data ∧
      data.length = j.setup.regionSize := by
    intro c hc
    obtain ⟨strand, hstrand, hfed⟩ := hserving.fed_of_mem hc
    exact ⟨strand.job, strand.input, hfed, hfull strand hstrand⟩
  have hasked : ∀ {b : Board} {u : Trace}, Board.Since o.board b (t ++ u) →
      u.Uses (s.chain.contexts.map Context.id) → (∀ id, u.fed id = []) →
      { s with platform := { s.platform with board := b } }.Accounted o image (t ++ u) := by
    intro b u hb hu hnothing
    refine ⟨hb, fun id => ?_, haccounted.ids_nodup, ?_⟩
    · rw [hu.live_iff]
      exact haccounted.live_iff id
    · rw [Trace.operations_append, hu.operations_eq_nil, List.append_nil]
      exact haccounted.honours.append fun op _ => hnothing op.id
  simp only [onBoard, onPlatform, Platform.onBoard, Step.ensures_focus]
  apply (Board.ensures_finalizeAll h.since hfed).mono
  · rintro _ b ⟨hverdicts, u, hb, hu, hnothing⟩
    exact ⟨(hserving.verdicts hfull).mp hverdicts, trivial, t ++ u, hasked hb hu hnothing⟩
  · rintro e b ⟨rfl, hreject, u, hb, hu, hnothing⟩
    refine ⟨rfl, fun hfaults hall => ?_, trivial, t ++ u, hasked hb hu hnothing⟩
    obtain ⟨c, hc, hne⟩ := hreject hfaults
    exact hne ((hserving.verdicts hfull).mpr hall c hc)

/-- What a session reports is what can be read off the image. -/
theorem Shows.verified_eq (h : s.Shows o policy p t) {m : Layer}
    (hheader : m.header = p.outline.innermost.header) (hextent : m.extent = p.outline.extent) :
    s.verified m = p.outline.verified := by
  have hsigned := h.chain.signed
  have hcount : s.headerCount = p.outline.envelopes.length := by
    have hlength := congrArg List.length hsigned
    rwa [Outline.signed, List.length_map, List.length_map] at hlength
  have hany : s.chain.layers.any Layer.isNvidia = p.outline.signed.any id := by
    rw [← hsigned, List.any_map]
    rfl
  rw [verified, hheader, hextent, hcount, hany]
  rfl

theorem ensures_judge (h : s.At o policy image) :
    Step.Ensures judge s
      (fun v s' => o.judgement policy image = .ok v ∧ s'.phase = s.phase ∧
        ∃ t, s'.Accounted o image t)
      (fun e s' => (o.board.faults = [] → o.judgement policy image = .error e) ∧
        s'.phase = s.phase ∧ ∃ t, s'.Accounted o image t) := by
  obtain ⟨outline, t, houtline, hp, hshows, hsafe⟩ := h
  obtain ⟨houter, hsettled⟩ := Opening.outline_eq_ok_iff.mp houtline
  have haccounted : s.Accounted o image t := hshows.accounted hp ⟨houter, rfl⟩
  obtain ⟨l, hlayer, hl⟩ := hshows.chain.outer
  obtain ⟨m, hinnermost, hheader, hextent⟩ := hshows.chain.innermost
  have hsigned : s.chain.layers.map Layer.isNvidia = outline.signed := hshows.chain.signed
  have hverified : s.verified m = outline.verified := hshows.verified_eq hheader hextent
  have hsize : l.size = outline.outer.size := hl.size_eq
  have hle := outline.outer.length_payload_le image
  have hremaining : s.remaining = outline.outer.size - (outline.outer.payload image).length :=
    hshows.remaining_eq
  simp only [judge, Step.ensures_bind, Step.ensures_get, Step.ensures_require, hshows.phase, hlayer,
    hinnermost, not_true_eq_false, false_implies, and_true, true_implies, hsigned, hshows.policy,
    Step.ensures_pure]
  by_cases hshort : (outline.outer.payload image).length < outline.outer.size
  · refine ⟨fun hdone => absurd hdone.1 (by omega), fun _ => ⟨fun _ => ?_, trivial, t, haccounted⟩⟩
    exact Opening.judgement_of_incomplete houtline hshort
  · have hraw : (outline.outer.payload image).length = outline.outer.size := by omega
    have hdone : s.remaining = 0 ∧ s.window.safe = l.size :=
      ⟨by omega, by rw [hsafe, hsize, Progress.safe_of_complete hsettled hraw]⟩
    have hfull : (Progress.reached outline (outline.outer.payload image)).strands o.ring =
        o.strands image := by
      rw [Progress.strands_of_complete hsettled hraw, Opening.strands_of_outline houtline]
    have hjudgement := Opening.judgement_of_complete houtline hshort policy
    refine ⟨fun _ => ⟨fun hmet => ?_, fun hmet => ⟨fun _ => ?_, trivial, t, haccounted⟩⟩,
      fun hnot => absurd hdone hnot⟩
    · have hverdicts := ensures_verdicts hshows haccounted fun strand =>
        Progress.length_of_mem_strands hsettled hraw
      rw [hfull] at hverdicts
      apply hverdicts.mono
      · rintro _ s' ⟨hall, hphase, haccounted'⟩
        rw [hjudgement, if_pos ⟨hmet, hall⟩, hverified]
        exact ⟨rfl, hphase.trans hshows.phase, haccounted'⟩
      · rintro e s' ⟨rfl, hreject, hphase, haccounted'⟩
        refine ⟨fun hfaults => ?_, hphase.trans hshows.phase, haccounted'⟩
        rw [hjudgement, if_neg fun hboth => hreject hfaults hboth.2]
    · rw [hjudgement, if_neg fun hboth => hmet hboth.1]

/-- **Finalizing** comes to the verdict on the image and leaves nothing open. -/
theorem ensures_finalize (h : s.At o policy image) :
    Step.Ensures finalize s
      (fun v s' => o.judgement policy image = .ok v ∧ s'.phase = .done ∧
        s'.chain.contexts = [] ∧ ∃ t, s'.Accounted o image t)
      (fun e s' => (o.board.faults = [] → o.judgement policy image = .error e) ∧ s'.phase = .done ∧
        s'.chain.contexts = [] ∧ ∃ t, s'.Accounted o image t) := by
  have hphase : s.phase = .processing := h.phase
  have hend : ∀ {s' : Session}, s'.phase = s.phase →
      (if s'.phase = .failed then Phase.failed else Phase.done) = .done := by
    intro s' hs'
    rw [hs', hphase]
    rfl
  have hclosed : ∀ {s' : Session}, (∃ t, s'.Accounted o image t) →
      ∃ t, { s'.release with
        phase := if s'.phase = Phase.failed then Phase.failed else Phase.done }.Accounted o image t := by
    rintro s' ⟨t, haccounted⟩
    exact ⟨_, { haccounted.release with }⟩
  simp only [finalize, Step.ensures_ensuring]
  apply (ensures_judge h).mono
  · rintro v s' ⟨hjudgement, hs', haccounted⟩
    exact ⟨hjudgement, hend hs', contexts_release s', hclosed haccounted⟩
  · rintro e s' ⟨hjudgement, hs', haccounted⟩
    exact ⟨hjudgement, hend hs', contexts_release s', hclosed haccounted⟩

/-- Without payload taken up there is nothing to come to a verdict on. -/
theorem ensures_judge_invalid (hphase : s.phase ≠ .processing) :
    Step.Ensures judge s (fun _ _ => False) (fun e s' => e = .invalid ∧ s' = s) := by
  simp only [judge, Step.ensures_bind, Step.ensures_get, Step.ensures_require]
  exact ⟨fun hprocessing => absurd hprocessing hphase, fun _ => ⟨trivial, trivial⟩⟩

/-- What is open is closed all the same. -/
theorem ensures_finalize_invalid (hphase : s.phase ≠ .processing) (h : s.Accounted o image t) :
    Step.Ensures finalize s (fun _ _ => False)
      (fun e s' => e = .invalid ∧
        s'.phase = (if s.phase = .failed then .failed else .done) ∧ s'.chain.contexts = [] ∧
        ∃ t, s'.Accounted o image t) := by
  simp only [finalize, Step.ensures_ensuring]
  refine (ensures_judge_invalid hphase).mono (fun _ _ hnever => hnever) ?_
  rintro e s' ⟨rfl, rfl⟩
  exact ⟨rfl, rfl, contexts_release s', _, { h.release with }⟩

theorem outcome_finalize_invalid (hphase : s.phase ≠ .processing) :
    finalize.outcome s = .error .invalid := by
  have hensures : Step.Ensures finalize s (fun _ _ => False) (fun e _ => e = .invalid) := by
    simp only [finalize, Step.ensures_ensuring]
    exact (ensures_judge_invalid hphase).mono (fun _ _ hnever => hnever) fun _ _ hbad => hbad.1
  cases hout : finalize.outcome s with
  | ok v => exact (hensures.outcome_ok hout).elim
  | error e => rw [hensures.outcome_error hout]

end Session

end SecureBoot
