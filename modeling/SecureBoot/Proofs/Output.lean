import SecureBoot.Proofs.Bounds

/-!
What counts as output is final. Decryption happens in place, and a header that turns up late adds
operations over bytes that are in the destination already, so it takes the bounds of a session to see
that nothing is published which an operation is still going to rewrite. `Session.Leads` is what every
change keeps of what stands in the destination: the output as it is, the bytes behind the payload
taken up untouched, and, once there is output, the chain as it has been settled. That output has been
run through every operation shows where it is published (`Session.Shows.published`).
-/

namespace SecureBoot

open Step

/-! ### Bytes that have run -/

/-- Byte `n` of the payload has passed through every operation of the envelope. An operation is known
by its job, since no two jobs of a chain are alike: what is inside has the shorter region. -/
def Envelope.HasRun (e : Envelope) (t : Trace) (ring : KeyRing) (n : Nat) : Prop :=
  ∀ j ∈ e.jobs ring, ∃ op ∈ t.operations, op.toJob = j ∧
    (e.header.lead j.algorithm).length + n < (t.fed op.id).length

theorem Header.exists_strand (h : Header) {jobs : List Job} {j : Job} (hj : j ∈ jobs)
    (payload : Bytes) :
    ∃ s ∈ h.strands jobs payload, s.job = j ∧
      s.input.length = (h.lead j.algorithm).length + payload.length := by
  induction jobs generalizing payload with
  | nil => cases hj
  | cons i rest ih =>
    rcases List.mem_cons.mp hj with rfl | hj
    · exact ⟨_, List.mem_cons_self .., rfl, List.length_append⟩
    · obtain ⟨s, hs, hjob, hlen⟩ := ih hj (i.transform 0 payload)
      exact ⟨s, List.mem_cons_of_mem _ hs, hjob, by rw [hlen, Job.length_transform]⟩

theorem Serving.exists_fed {t : Trace} {contexts : List Context} {strands : List Strand}
    (h : Serving t contexts strands) {s : Strand} (hs : s ∈ strands) :
    ∃ c ∈ contexts, c.Fed t s.job s.input := by
  induction h with
  | nil => cases hs
  | cons hfed _ ih =>
    rcases List.mem_cons.mp hs with rfl | hs
    · exact ⟨_, List.mem_cons_self .., hfed⟩
    · obtain ⟨c, hc, hfed⟩ := ih hs
      exact ⟨c, List.mem_cons_of_mem _ hc, hfed⟩

namespace Envelope

variable {e : Envelope} {t : Trace} {ring : KeyRing} {n : Nat}

theorem HasRun.append (h : e.HasRun t ring n) (u : Trace) : HasRun e (t ++ u) ring n := by
  intro j hj
  obtain ⟨op, hop, hjob, hlt⟩ := h j hj
  refine ⟨op, ?_, hjob, ?_⟩
  · rw [Trace.operations_append]
    exact List.mem_append_left _ hop
  · rw [Trace.fed_append, List.length_append]
    omega

end Envelope

namespace Layer

variable {l : Layer} {t : Trace} {ring : KeyRing}

def envelope (l : Layer) : Envelope := ⟨l.header, l.mode⟩

/-- What a layer is and where, however far it has run. -/
def seat (l : Layer) : Envelope × Nat := (l.envelope, l.start)

/-- A layer has run what it has been fed through all of its operations. -/
theorem Serves.hasRun {e : Envelope} {start : Nat} {input : Bytes}
    (h : l.Serves t ring e start input) {i : Nat} (hstart : l.start ≤ i) (hend : i < l.safeEnd) :
    l.envelope.HasRun t ring (i - l.start) := by
  have henvelope : l.envelope = e := by rw [envelope, h.header, h.mode]
  rw [henvelope]
  intro j hj
  obtain ⟨s, hs, rfl, hlen⟩ := e.header.exists_strand hj input
  obtain ⟨c, -, hfed⟩ := h.serving.exists_fed hs
  refine ⟨c.operation, hfed.mem, hfed.job_eq, ?_⟩
  have hfed' : t.fed c.operation.id = s.input := hfed.fed_eq
  rw [hfed', hlen]
  rw [safeEnd, h.done] at hend
  omega

end Layer

/-- Output has been run by every layer that it belongs to. -/
theorem Chain.Fits.lt_safeEnd {w : Window} {c : Chain} (h : c.Fits w) {l : Layer}
    (hl : l ∈ c.layers) {i : Nat} (hsafe : i < w.safe) (hstop : i < l.stop) : i < l.safeEnd := by
  cases h with
  | empty => cases hl
  | undecided _ hzero => omega
  | single _ hle =>
    obtain rfl := List.mem_singleton.mp hl
    exact Nat.lt_of_lt_of_le hsafe hle
  | @nested outer inner houter hinner hle hpending =>
    simp only [layers, List.mem_cons, List.not_mem_nil, or_false] at hl
    rcases hl with rfl | rfl
    · exact Nat.lt_of_lt_of_le hsafe hle
    · rcases Nat.lt_or_ge l.safeEnd l.stop with hlt | hge
      · exact Nat.lt_of_lt_of_le hsafe (hpending hlt)
      · exact Nat.lt_of_lt_of_le hstop hge

namespace Session

variable {s s' s'' : Session}

/-! ### What stands in the destination -/

/-- What a session keeps of the destination as it goes on. -/
structure Leads (s s' : Session) : Prop where
  safe_le : s.window.safe ≤ s'.window.safe
  filled_le : s.window.filled ≤ s'.window.filled
  output : ∀ i < s.window.safe, s'.dest[i]? = s.dest[i]?
  untouched : ∀ i, s'.window.filled ≤ i → s'.dest[i]? = s.dest[i]?
  chain : 0 < s.window.safe → s'.chain.layers.map Layer.seat = s.chain.layers.map Layer.seat

namespace Leads

theorem refl (s : Session) : s.Leads s :=
  ⟨Nat.le_refl _, Nat.le_refl _, fun _ _ => rfl, fun _ _ => rfl, fun _ => rfl⟩

theorem trans (h : s.Leads s') (h' : s'.Leads s'') : s.Leads s'' where
  safe_le := Nat.le_trans h.safe_le h'.safe_le
  filled_le := Nat.le_trans h.filled_le h'.filled_le
  output := fun i hi =>
    (h'.output i (Nat.lt_of_lt_of_le hi h.safe_le)).trans (h.output i hi)
  untouched := fun i hi =>
    (h'.untouched i hi).trans (h.untouched i (Nat.le_trans h'.filled_le hi))
  chain := fun hpos =>
    (h'.chain (Nat.lt_of_lt_of_le hpos h.safe_le)).trans (h.chain hpos)

/-- A change to neither the destination nor the cursors. -/
theorem of_eq (hdest : s'.dest = s.dest) (hwindow : s'.window = s.window)
    (hchain : 0 < s.window.safe →
      s'.chain.layers.map Layer.seat = s.chain.layers.map Layer.seat) : s.Leads s' where
  safe_le := Nat.le_of_eq (congrArg Window.safe hwindow.symm)
  filled_le := Nat.le_of_eq (congrArg Window.filled hwindow.symm)
  output := fun _ _ => by rw [hdest]
  untouched := fun _ _ => by rw [hdest]
  chain := hchain

/-- A layer that a session has had output of before it is the same in its further course. -/
theorem exists_layer (h : s.Leads s') (hpos : 0 < s.window.safe) {l : Layer}
    (hl : l ∈ s'.chain.layers) : ∃ m ∈ s.chain.layers, m.seat = l.seat := by
  have hmem : l.seat ∈ s'.chain.layers.map Layer.seat := List.mem_map_of_mem hl
  rw [h.chain hpos] at hmem
  exact List.mem_map.mp hmem

end Leads

/-- A layer that runs writes over neither output nor anything behind the payload taken up. -/
theorem Works.getElem?_overwrite {l : Layer} {available : Nat} {put : Layer → Chain}
    (hworks : s.Works l available put) (h : s.Bounded) {piece : Bytes}
    (hpiece : piece.length ≤ l.runnable available) {i : Nat}
    (hi : i < s.window.safe ∨ s.window.filled ≤ i) :
    (overwrite s.dest l.safeEnd piece)[i]? = s.dest[i]? := by
  obtain ⟨hfit, hsafe⟩ := hworks.within h.fits
  have hfilled := h.fits.filled_le
  rw [h.capacity] at hfilled
  rw [SecureBoot.getElem?_overwrite _ _ _ _ (by omega), if_neg (by omega)]

/-- **What every change keeps of the destination.** -/
theorem Bounded.leads_change (h : s.Bounded) (hchange : s.Change s') : s.Leads s' := by
  have hfits := h.fits
  cases hchange with
  | asked | required | stopped => exact .of_eq rfl rfl fun _ => rfl
  | released =>
    refine .of_eq rfl rfl fun _ => ?_
    rw [release, Chain.layers_map, List.map_map]
    rfl
  | opened hphase =>
    rw [h.awaiting hphase] at hfits
    refine .of_eq rfl rfl fun hpos => ?_
    rw [(hfits.eq_zero rfl).2] at hpos
    exact absurd hpos (Nat.lt_irrefl 0)
  | @taken payload hremaining hspace =>
    have hfilled : s.window.filled + payload.length ≤ s.dest.length := h.capacity ▸ hspace
    have hsafe := hfits.safe_le_filled
    refine ⟨Nat.le_refl _, Nat.le_add_right .., fun i hi => ?_, fun i hi => ?_, fun _ => rfl⟩
    · rw [getElem?_overwrite _ _ _ _ hfilled, if_neg (by omega)]
    · simp only at hi
      rw [getElem?_overwrite _ _ _ _ hfilled, if_neg (by omega)]
  | ran hworks hpiece =>
    exact
      { safe_le := Nat.le_refl _
        filled_le := Nat.le_refl _
        output := fun i hi => hworks.getElem?_overwrite h hpiece (.inl hi)
        untouched := fun i hi => hworks.getElem?_overwrite h hpiece (.inr hi)
        chain := fun _ => hworks.map_layers rfl }
  | spoiled hworks hpiece =>
    exact
      { safe_le := Nat.le_refl _
        filled_le := Nat.le_refl _
        output := fun i hi => hworks.getElem?_overwrite h hpiece (.inl hi)
        untouched := fun i hi => hworks.getElem?_overwrite h hpiece (.inr hi)
        chain := fun _ => rfl }
  | settledSingle hchain =>
    exact .of_eq rfl rfl fun _ => by rw [hchain]; rfl
  | settledNested hchain =>
    rw [hchain] at hfits
    refine .of_eq rfl rfl fun hpos => ?_
    cases hfits with
    | undecided _ hzero =>
      rw [hzero] at hpos
      exact absurd hpos (Nat.lt_irrefl 0)
  | committed hsafe hmin hmax =>
    exact ⟨hmin, Nat.le_refl _, fun _ _ => rfl, fun _ _ => rfl, fun _ => rfl⟩

theorem Bounded.leads (h : s.Bounded) (hreach : s.Reaches s') : s.Leads s' :=
  hreach.related (fun h hchange => h.change hchange) (fun h hchange => h.leads_change hchange)
    Leads.refl (fun h h' => h.trans h') h

/-! ### What is published -/

section Published

variable {o : Opening} {policy : NvidiaPolicy} {image : Bytes} {t : Trace}

/-- All output has been run by every layer that it belongs to. -/
def Published (ring : KeyRing) (t : Trace) (s : Session) : Prop :=
  ∀ l ∈ s.chain.layers, ∀ i < s.window.safe, l.start ≤ i → i < l.stop →
    l.envelope.HasRun t ring (i - l.start)

theorem Shows.published {p : Progress} (h : s.Shows o policy p t) (hfits : s.chain.Fits s.window) :
    s.Published o.ring t := by
  intro l hl i hsafe hstart hstop
  have hend := hfits.lt_safeEnd hl hsafe hstop
  cases h.chain with
  | undecided hout hchain hserves | single hout hchain hserves =>
    rw [hchain] at hl
    obtain rfl := List.mem_singleton.mp hl
    exact hserves.hasRun hstart hend
  | nested hout hchain hserves hinner =>
    rw [hchain] at hl
    simp only [Chain.layers, List.mem_cons, List.not_mem_nil, or_false] at hl
    rcases hl with rfl | rfl
    · exact hserves.hasRun hstart hend
    · exact hinner.hasRun hstart hend

/-- What is published stays so. -/
theorem Published.leads {ring : KeyRing} (h : s.Published ring t) (hleads : s.Leads s')
    {l : Layer} (hl : l ∈ s'.chain.layers) {i : Nat} (hi : i < s.window.safe) (hstart : l.start ≤ i)
    (hstop : i < l.stop) : l.envelope.HasRun t ring (i - l.start) := by
  obtain ⟨m, hm, hseat⟩ := hleads.exists_layer (Nat.zero_lt_of_lt hi) hl
  have henvelope : m.envelope = l.envelope := congrArg Prod.fst hseat
  have hsame : m.start = l.start := congrArg Prod.snd hseat
  have hsize : m.size = l.size := congrArg (fun e : Envelope => e.size) henvelope
  have hrun := h m hm i hi (hsame ▸ hstart) (by rwa [Layer.stop, hsame, hsize])
  rwa [henvelope, hsame] at hrun

/-- A push that is taken in comes in order. -/
theorem order_of_push {chunk : Bytes} {first : Bool}
    (hok : (Session.push chunk first).outcome s = .ok ()) :
    s.phase = .awaitingHeader ∧ first = true ∨ s.phase = .processing ∧ first = false := by
  by_contra hout
  rw [not_or, not_and, not_and, Bool.not_eq_true, Bool.not_eq_false] at hout
  exact (ensures_push_invalid hout.1 hout.2).outcome_ok hok

/-- A push that is taken in leads to where the image does. -/
theorem Coherent.at_of_push (h : s.Coherent o image) {chunk : Bytes} {first : Bool}
    (hok : (Session.push chunk first).outcome s = .ok ()) :
    ∃ policy, ((Session.push chunk first).final s).At o policy (image ++ chunk) := by
  rcases order_of_push hok with ⟨hphase, rfl⟩ | ⟨hphase, rfl⟩
  · obtain ⟨rfl, policy, t, hawaits⟩ := h.exists_awaits hphase
    exact ⟨policy, (ensures_push_first hawaits chunk).outcome_ok hok⟩
  · obtain ⟨policy, hat⟩ := h.exists_at hphase
    exact ⟨policy, (ensures_push_next hat chunk).outcome_ok hok⟩

/-- What a session stands for that has been asked a number of things, with the record as it is. -/
structure Publishes (o : Opening) (image : Bytes) (t : Trace) (s : Session) : Prop where
  bounded : s.Bounded
  coherent : s.Coherent o image
  trace : s.board.trace = o.board.trace ++ t
  published : s.Published o.ring t

/-- What one request keeps. Only a push that is taken in publishes anything, and it leaves the
session where the image leads to. -/
theorem Publishes.answer (h : s.Publishes o image t) (r : Request) :
    ∃ u, (s.answer r).2.Publishes o (image ++ r.chunk) (t ++ u) := by
  have hbounded := h.bounded.reaches (s.reaches_answer r)
  have hleads := h.bounded.leads (s.reaches_answer r)
  have hcoherent := h.coherent.answer r
  obtain ⟨u, hu, -⟩ := (s.extends_answer r).calls
  have htrace : (s.answer r).2.board.trace = o.board.trace ++ (t ++ u) := by
    rw [hu, h.trace, List.append_assoc]
  refine ⟨u, hbounded, hcoherent, htrace, ?_⟩
  rcases s.safe_answer r with hsafe | ⟨chunk, first, rfl, hok⟩
  · intro l hl i hi hstart hstop
    rw [hsafe] at hi
    exact (h.published.leads hleads hl hi hstart hstop).append u
  · obtain ⟨policy, outline, t', -, -, hshows, -⟩ := h.coherent.at_of_push hok
    have hsame : t' = t ++ u :=
      List.append_cancel_left (hshows.since.trace.symm.trans htrace)
    exact hsame ▸ hshows.published hbounded.fits

theorem Publishes.after (h : s.Publishes o image t) (requests : List Request) :
    ∃ u, (s.after requests).Publishes o (image ++ pushed requests) (t ++ u) := by
  induction requests generalizing s image t with
  | nil =>
    rw [pushed, List.flatMap_nil, List.append_nil]
    exact ⟨[], by rwa [List.append_nil]⟩
  | cons r rest ih =>
    obtain ⟨u, hu⟩ := h.answer r
    obtain ⟨v, hv⟩ := ih hu
    rw [List.append_assoc, List.append_assoc] at hv
    exact ⟨u ++ v, hv⟩

theorem Awaits.publishes (h : s.Awaits o policy t) : s.Publishes o [] t where
  bounded := h.bounded
  coherent := .awaiting h rfl
  trace := h.since.trace
  published := by
    intro l hl
    rw [h.chain] at hl
    cases hl

end Published

/-! ### What is left alone -/

/-- The destination still holds what it held in the beginning wherever no payload has been taken
up. -/
structure Spares (dest : Bytes) (s : Session) : Prop where
  empty : s.headerCount = 0 → s.dest = dest
  behind : ∀ outer, s.chain.outer? = some outer →
    ∀ i, outer.size - s.remaining ≤ i → s.dest[i]? = dest[i]?

theorem Bounded.spares (h : s.Bounded) {dest : Bytes}
    (huntouched : ∀ i, s.window.filled ≤ i → s.dest[i]? = dest[i]?) : s.Spares dest where
  empty := by
    intro hempty
    apply List.ext_getElem?
    intro i
    exact huntouched i (by rw [(h.fits.eq_zero hempty).1]; exact Nat.zero_le i)
  behind := by
    intro outer hl i hi
    have hfilled := (h.fits.covers hl).filled_le
    rw [remaining, hl] at hi
    exact huntouched i (by simp only at hi; omega)

end Session

namespace Authenticator

variable {a : Authenticator} {type : BinaryType} {dest : Bytes} {s : Session}

/-- **Output is final and nothing outside the image is touched.** Whatever an opened session has been
asked, the bytes that it counts as output have been run through every operation of every header that
the chain is ever going to have there. Whatever becomes of it then, in the midst of a request too,
they stay as they are and remain output. And at every moment the destination is as it was wherever no
payload has been taken up. Further requests and the end of the session are among what may become of
it. -/
theorem output_is_final (hopen : (openSession type dest).outcome a = .ok s)
    (requests : List Session.Request) :
    let published := s.after requests
    (∃ t : Trace, published.platform.board.trace = s.platform.board.trace ++ t ∧
      ∀ later, published.Reaches later →
        published.safeLength ≤ later.safeLength ∧
        (∀ i < published.safeLength, later.dest[i]? = published.dest[i]? ∧
          ∀ l ∈ later.chain.layers, l.start ≤ i → i < l.stop →
            l.envelope.HasRun t s.opening.ring (i - l.start)) ∧
        later.Spares dest) ∧
    ∀ rest, published.Reaches (published.after rest) ∧
      published.Reaches (published.after rest).release := by
  intro published
  obtain ⟨hawaits, -⟩ := awaits_of_openSession hopen
  have hdest : s.dest = dest := by
    obtain ⟨-, hopening, -⟩ := (ensures_openSession (.refl a.board) rfl type dest).outcome_ok hopen
    exact congrArg Opening.dest hopening
  obtain ⟨t, h⟩ := hawaits.publishes.after requests
  rw [List.nil_append] at h
  refine ⟨⟨t, h.trace, fun later hlater => ?_⟩, fun rest => ?_⟩
  · have hleads := h.bounded.leads hlater
    refine ⟨hleads.safe_le, fun i hi => ⟨hleads.output i hi, fun l hl => ?_⟩, ?_⟩
    · exact h.published.leads hleads hl hi
    · have hbegin := hawaits.bounded.leads ((s.reaches_after requests).trans hlater)
      refine (h.bounded.reaches hlater).spares fun i hi => ?_
      rw [hbegin.untouched i hi, hdest]
  · have hreach := published.reaches_after rest
    exact ⟨hreach, hreach.trans Session.Change.released.reaches⟩

/-- A session for a token has taken in all of it, so that the token stays in the destination. -/
theorem output_is_final_token :
    let image := (Header.blank .oemRsa 32).bytes ++ List.replicate 32 7
    ∃ s, (openSession .rollbackToken (List.replicate 40 0)).outcome
        (fresh .t194 (.fresh .blank []) .disabled) = .ok s ∧
      (s.after [.push image true]).dest = List.replicate 32 7 ++ List.replicate 8 0 ∧
      ∀ rest, ∀ i < 32,
        ((s.after [.push image true]).after rest).dest[i]? = (s.after [.push image true]).dest[i]? := by
  intro image
  have hopen : (openSession .rollbackToken (List.replicate 40 0)).outcome
      (fresh .t194 (.fresh .blank []) .disabled) = .ok _ := rfl
  refine ⟨_, hopen, by decide +kernel, fun rest i hi => ?_⟩
  obtain ⟨⟨t, -, hlater⟩, hrest⟩ := output_is_final hopen [.push image true]
  refine ((hlater _ (hrest rest).1).2.1 i (Nat.lt_of_lt_of_eq hi ?_)).1
  decide +kernel

end Authenticator

end SecureBoot
