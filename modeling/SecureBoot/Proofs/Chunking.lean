import SecureBoot.Proofs.Course

/-!
Chunks do not matter. A session holds nothing but what its image determines, so two sessions that have
taken in the same image are told apart by nothing that can be seen of them (`At.alike`). Without
faults delivering an image fails exactly if the image is refused, and then with the error for which it
is refused (`ensures_deliver`), so that any two ways of cutting an image lead to the same end
(`deliver_eq_of_same_image`).
-/

namespace SecureBoot

/-! ### What determines an operation -/

theorem Context.Fed.eq {t t' : Trace} {c c' : Context} {j : Job} {data : Bytes} (h : c.Fed t j data)
    (h' : c'.Fed t' j data) (hid : c.id = c'.id) : c = c' := by
  have hjob : c.job = c'.job := h.job_eq.trans h'.job_eq.symm
  have hfed : c.fed = c'.fed := h.fed.trans h'.fed.symm
  have hdigest : c.digest = c'.digest := h.digest.trans h'.digest.symm
  cases c
  cases c'
  cases hjob
  cases hid
  cases hfed
  cases hdigest
  rfl

namespace Serving

variable {t t' : Trace} {contexts contexts' : List Context} {strands : List Strand}

theorem contexts_eq (h : Serving t contexts strands) (h' : Serving t' contexts' strands)
    (hids : contexts.map Context.id = contexts'.map Context.id) : contexts = contexts' := by
  induction h generalizing contexts' with
  | nil =>
    cases h'
    rfl
  | cons hfed _ ih =>
    cases h' with
    | cons hfed' hrest' =>
      obtain ⟨hid, hids⟩ := List.cons.inj hids
      rw [hfed.eq hfed' hid, ih hrest' hids]

theorem fed_eq (h : Serving t contexts strands) (h' : Serving t' contexts strands) {c : Context}
    (hc : c ∈ contexts) : t.fed c.id = t'.fed c.id := by
  induction h with
  | nil => cases hc
  | cons hfed _ ih =>
    cases h' with
    | cons hfed' hrest' =>
      rcases List.mem_cons.mp hc with rfl | hc
      · rw [hfed.fed_eq, hfed'.fed_eq]
      · exact ih hrest' hc

end Serving

theorem Layer.Serves.eq {t t' : Trace} {ring : KeyRing} {e : Envelope} {start : Nat} {input : Bytes}
    {l l' : Layer} (h : l.Serves t ring e start input) (h' : l'.Serves t' ring e start input)
    (hcontexts : l.contexts = l'.contexts) : l = l' := by
  have hheader : l.header = l'.header := h.header.trans h'.header.symm
  have hmode : l.mode = l'.mode := h.mode.trans h'.mode.symm
  have hstart : l.start = l'.start := h.start_eq.trans h'.start_eq.symm
  have hdone : l.done = l'.done := h.done.trans h'.done.symm
  cases l
  cases l'
  cases hheader
  cases hmode
  cases hstart
  cases hdone
  cases hcontexts
  rfl

theorem Progress.Carried.chain_eq {t t' : Trace} {ring : KeyRing} {p : Progress} {c c' : Chain}
    (h : p.Carried t ring c) (h' : p.Carried t' ring c') (hcontexts : c.contexts = c'.contexts) :
    c = c' := by
  cases h with
  | @undecided e l hout hchain hl =>
    cases h' with
    | @undecided e' l' hout' hchain' hl' =>
      obtain rfl : e = e' := Outline.undecided.inj (hout.symm.trans hout')
      rw [hchain, hchain', Chain.contexts_undecided, Chain.contexts_undecided] at hcontexts
      rw [hchain, hchain', hl.eq hl' hcontexts]
    | single hout' => cases hout.symm.trans hout'
    | nested hout' => cases hout.symm.trans hout'
  | @single e l hout hchain hl =>
    cases h' with
    | undecided hout' => cases hout.symm.trans hout'
    | @single e' l' hout' hchain' hl' =>
      obtain rfl : e = e' := Outline.single.inj (hout.symm.trans hout')
      rw [hchain, hchain', Chain.contexts_single, Chain.contexts_single] at hcontexts
      rw [hchain, hchain', hl.eq hl' hcontexts]
    | nested hout' => cases hout.symm.trans hout'
  | @nested e i l m hout hchain hl hm =>
    cases h' with
    | undecided hout' => cases hout.symm.trans hout'
    | single hout' => cases hout.symm.trans hout'
    | @nested e' i' l' m' hout' hchain' hl' hm' =>
      obtain ⟨rfl, rfl⟩ := Outline.nested.inj (hout.symm.trans hout')
      rw [hchain, hchain', Chain.contexts_nested, Chain.contexts_nested] at hcontexts
      have hlength : l.contexts.length = l'.contexts.length :=
        hl.serving.length_eq.trans hl'.serving.length_eq.symm
      obtain ⟨hcontexts, hcontexts'⟩ := List.append_inj hcontexts hlength
      rw [hchain, hchain', hl.eq hl' hcontexts, hm.eq hm' hcontexts']

namespace Session

variable {o : Opening} {policy : NvidiaPolicy} {p : Progress} {t t' : Trace} {s s' : Session}
  {image : Bytes}

/-! ### What an image determines -/

theorem Shows.contexts_eq (h : s.Shows o policy p t) (h' : s'.Shows o policy p t') :
    s.chain.contexts = s'.chain.contexts := by
  have hids : ∀ {s : Session} {t : Trace}, s.Shows o policy p t → s.chain.contexts.map Context.id =
      List.range' o.board.nextId (p.strands o.ring).length := by
    intro s t h
    have hall := h.since.ids
    rw [h.operations, List.map_map, List.length_map, h.chain.serving.length_eq] at hall
    exact hall
  exact h.chain.serving.contexts_eq h'.chain.serving ((hids h).trans (hids h').symm)

theorem Shows.fed_eq (h : s.Shows o policy p t) (h' : s'.Shows o policy p t') (id : Nat) :
    Trace.fed s.platform.board.trace id = Trace.fed s'.platform.board.trace id := by
  have hcontexts := h.contexts_eq h'
  have hserving := h.chain.serving
  rw [hcontexts] at hserving
  have hsame : t.fed id = t'.fed id := by
    by_cases hid : id ∈ s'.chain.contexts.map Context.id
    · obtain ⟨c, hc, rfl⟩ := List.mem_map.mp hid
      exact hserving.fed_eq h'.chain.serving hc
    · have hnew' : ¬ t'.Opened id := by
        rw [Trace.opened_iff_mem, h'.operations, List.map_map]
        exact hid
      have hnew : ¬ t.Opened id := by
        rw [Trace.opened_iff_mem, h.operations, List.map_map, hcontexts]
        exact hid
      rw [h.since.orderly.fed_eq_nil hnew, h'.since.orderly.fed_eq_nil hnew']
  rw [h.since.trace, h'.since.trace, Trace.fed_append, Trace.fed_append, hsame]

/-- All that can be seen of two sessions is the same: where they stand, their headers, their output,
what they still want, their destinations, and what their operations have been fed. -/
structure Alike (s s' : Session) : Prop where
  phase : s.phase = s'.phase
  headerCount : s.headerCount = s'.headerCount
  currentHeader : s.currentHeader? = s'.currentHeader?
  safeLength : s.safeLength = s'.safeLength
  remaining : s.remaining = s'.remaining
  dest : s.dest = s'.dest
  fed : ∀ id, Trace.fed s.platform.board.trace id = Trace.fed s'.platform.board.trace id

theorem At.alike (h : s.At o policy image) (h' : s'.At o policy image) : s.Alike s' := by
  obtain ⟨outline, t, houtline, -, hshows, hsafe⟩ := h
  obtain ⟨outline', t', houtline', -, hshows', hsafe'⟩ := h'
  obtain rfl : outline = outline' := Except.ok.inj (houtline.symm.trans houtline')
  have hchain : s.chain = s'.chain :=
    hshows.chain.chain_eq hshows'.chain (hshows.contexts_eq hshows')
  have hfilled : s.window.filled = s'.window.filled := hshows.filled.trans hshows'.filled.symm
  exact
    { phase := hshows.phase.trans hshows'.phase.symm
      headerCount := by rw [headerCount, headerCount, hchain]
      currentHeader := by rw [currentHeader?, currentHeader?, headerCount, headerCount, hchain]
      safeLength := hsafe.trans hsafe'.symm
      remaining := by rw [remaining, remaining, hchain, hfilled]
      dest := hshows.dest.trans hshows'.dest.symm
      fed := hshows.fed_eq hshows' }

/-- Without faults a session comes to the verdict on its image. -/
theorem At.outcome_finalize (h : s.At o policy image) (hfaults : o.board.faults = []) :
    finalize.outcome s = o.judgement policy image := by
  have hensures := ensures_finalize h
  cases hout : finalize.outcome s with
  | ok v => exact (hensures.outcome_ok hout).1.symm
  | error e => exact ((hensures.outcome_error hout).1 hfaults).symm

/-! ### Delivering an image -/

/-- Pushes the chunks that follow the first one, up to the first error. -/
def pushAll : List Bytes → Step Session Unit
  | [] => pure ()
  | chunk :: rest => do
    push chunk false
    pushAll rest

/-- Pushes an image in chunks, up to the first error. -/
def deliver (first : Bytes) (rest : List Bytes) : Step Session Unit := do
  push first true
  pushAll rest

theorem ensures_pushAll (h : s.At o policy image) (rest : List Bytes) :
    Step.Ensures (pushAll rest) s (fun _ s' => s'.At o policy (image ++ rest.flatten))
      (fun e s' => s'.phase = .failed ∧
        (o.board.faults = [] → o.outline (image ++ rest.flatten) = .error e)) := by
  induction rest generalizing s image with
  | nil => exact (List.append_nil image).symm ▸ h
  | cons chunk rest ih =>
    have hlength : Header.size ≤ (image ++ chunk).length := by
      obtain ⟨outline, -, houtline, -⟩ := h
      have houter := (Opening.outline_eq_ok_iff.mp houtline).1
      rw [List.length_append]
      exact Nat.le_trans (Opening.length_of_outer_eq_ok houter).1 (Nat.le_add_right ..)
    rw [List.flatten_cons, ← List.append_assoc]
    simp only [pushAll, Step.ensures_bind]
    refine (ensures_push_next h chunk).mono (fun _ s' hat => ih hat) ?_
    rintro e s' ⟨⟨-, hrefused⟩, hphase⟩
    exact ⟨hphase, fun hfaults => Opening.outline_append_error hlength (hrefused hfaults) _⟩

/-- **Delivering an image**: a session stands where the image leads to, or the image is refused. -/
theorem ensures_deliver (h : s.Awaits o policy t) {first : Bytes}
    (hfirst : Header.size ≤ first.length) (rest : List Bytes) :
    Step.Ensures (deliver first rest) s (fun _ s' => s'.At o policy (first ++ rest.flatten))
      (fun e s' => s'.phase = .failed ∧
        (o.board.faults = [] → o.outline (first ++ rest.flatten) = .error e)) := by
  simp only [deliver, Step.ensures_bind]
  refine (ensures_push_first h first).mono (fun _ s' hat => ensures_pushAll hat rest) ?_
  rintro e s' ⟨⟨-, hrefused⟩, hphase⟩
  exact ⟨hphase, fun hfaults => Opening.outline_append_error hfirst (hrefused hfaults) _⟩

/-- What becomes of an image does not depend on its chunks. -/
theorem outcome_deliver (h : s.Awaits o policy t) (hfaults : o.board.faults = []) {first : Bytes}
    (hfirst : Header.size ≤ first.length) (rest : List Bytes) :
    (deliver first rest).outcome s = (o.outline (first ++ rest.flatten)).map fun _ => () := by
  have hensures := ensures_deliver h hfirst rest
  cases hout : (deliver first rest).outcome s with
  | ok _ =>
    obtain ⟨outline, -, houtline, -⟩ := hensures.outcome_ok hout
    rw [houtline]
    rfl
  | error e =>
    rw [(hensures.outcome_error hout).2 hfaults]
    rfl

end Session

namespace Authenticator

variable {a : Authenticator} {type : BinaryType} {dest : Bytes} {s : Session}

open Session in
/-- **Chunks do not matter**: without faults an image that is cut in any two ways is refused with the
same error both times, or is taken in both times, and then everything that can be seen is the same,
the verdict of a finalize included. -/
theorem deliver_eq_of_same_image (hopen : (openSession type dest).outcome a = .ok s)
    (hfaults : a.board.faults = []) {first first' : Bytes} {rest rest' : List Bytes}
    (hfirst : Header.size ≤ first.length) (hfirst' : Header.size ≤ first'.length)
    (hsame : first ++ rest.flatten = first' ++ rest'.flatten) :
    (∃ e, (deliver first rest).outcome s = .error e ∧ (deliver first' rest').outcome s = .error e) ∨
      ((deliver first rest).outcome s = .ok () ∧ (deliver first' rest').outcome s = .ok () ∧
        ((deliver first rest).final s).Alike ((deliver first' rest').final s) ∧
        finalize.outcome ((deliver first rest).final s) =
          finalize.outcome ((deliver first' rest').final s)) := by
  obtain ⟨hawaits, hboard⟩ := awaits_of_openSession hopen
  have hnone : s.opening.board.faults = [] := hboard.trans hfaults
  have hout := outcome_deliver hawaits hnone hfirst rest
  have hout' := outcome_deliver hawaits hnone hfirst' rest'
  rw [← hsame] at hout'
  cases houtline : s.opening.outline (first ++ rest.flatten) with
  | error e =>
    rw [houtline] at hout hout'
    exact .inl ⟨e, hout, hout'⟩
  | ok outline =>
    rw [houtline] at hout hout'
    have hat := (ensures_deliver hawaits hfirst rest).outcome_ok hout
    have hat' := (ensures_deliver hawaits hfirst' rest').outcome_ok hout'
    rw [← hsame] at hat'
    refine .inr ⟨hout, hout', hat.alike hat', ?_⟩
    rw [hat.outcome_finalize hnone, hat'.outcome_finalize hnone]

open Session in
/-- A token that comes in two chunks after its header, or half of it with the header. -/
theorem deliver_eq_of_same_token :
    let a := fresh .t194 (.fresh .blank []) .disabled
    let header := (Header.blank .oemRsa 32).bytes
    let half : Bytes := List.replicate 16 0
    ∃ s, (openSession .rollbackToken (List.replicate 32 0)).outcome a = .ok s ∧
      ((∃ e, (deliver header [half, half]).outcome s = .error e ∧
          (deliver (header ++ half) [[], half]).outcome s = .error e) ∨
        ((deliver header [half, half]).outcome s = .ok () ∧
          (deliver (header ++ half) [[], half]).outcome s = .ok () ∧
          ((deliver header [half, half]).final s).Alike
            ((deliver (header ++ half) [[], half]).final s) ∧
          finalize.outcome ((deliver header [half, half]).final s) =
            finalize.outcome ((deliver (header ++ half) [[], half]).final s))) := by
  intro a header half
  have hopen : (openSession .rollbackToken (List.replicate 32 0)).outcome a = .ok _ := rfl
  have hlength : header.length = Header.size := Header.length_bytes_eq _
  refine ⟨_, hopen, deliver_eq_of_same_image hopen rfl (Nat.le_of_eq hlength.symm) ?_ ?_⟩
  · rw [List.length_append, hlength]
    exact Nat.le_add_right ..
  · simp only [List.flatten_cons, List.flatten_nil, List.nil_append, List.append_assoc]

end Authenticator

end SecureBoot
