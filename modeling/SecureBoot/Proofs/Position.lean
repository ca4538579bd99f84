import SecureBoot.Proofs.Progress
import SecureBoot.Proofs.SettingUp

/-!
Where a session stands. `Session.Shows` ties a session that is taking in payload to the progress it
has made: its destination, its cursors, its operations and the record all follow from that.
`Session.At` says that the progress is the one which the image pushed so far leads to, so a session
holds nothing that its image does not determine.

A session that has failed or come to its verdict is not to be relied on for any of this, but it still
accounts for its operations (`Session.Accounted`): those which are open are its own, and none has
been fed anything but a beginning of what it was to be fed.
-/

namespace SecureBoot

theorem Trace.Uses.live_iff {t u : Trace} {ids : List Nat} {id : Nat} (h : u.Uses ids) :
    Trace.Live (t ++ u) id ↔ t.Live id := by
  have hopened : ¬ Trace.Opened u id := by
    rw [Trace.opened_iff_mem, h.operations_eq_nil]
    exact List.not_mem_nil
  simp only [Trace.Live, Trace.opened_append, hopened, or_false, List.mem_append, h.close_not_mem]

/-! ### Layers -/

/-- The layer is at work on an envelope, and its operations have been fed the payload `input`. -/
structure Layer.Serves (t : Trace) (ring : KeyRing) (e : Envelope) (start : Nat) (input : Bytes)
    (l : Layer) : Prop where
  header : l.header = e.header
  mode : l.mode = e.mode
  start_eq : l.start = start
  done : l.done = input.length
  serving : Serving t l.contexts (e.strands ring input)

namespace Layer.Serves

variable {t u : Trace} {ring : KeyRing} {e : Envelope} {start : Nat} {input : Bytes} {l : Layer}

theorem size_eq (h : l.Serves t ring e start input) : l.size = e.size :=
  congrArg Header.length h.header

/-- A layer that runs what it may run has then run all that could run at once. -/
theorem length_add_runnable (h : l.Serves t ring e start input) {n : Nat}
    (hinput : e.Aligned input.length) (hle : input.length ≤ n) (hsize : input.length ≤ e.size) :
    input.length + l.runnable (start + n) = e.portion n := by
  rw [← h.done, ← h.start_eq]
  rw [← h.done] at hinput hle hsize
  exact Layer.done_add_runnable h.header h.mode hinput hle hsize

theorem safeEnd_eq (h : l.Serves t ring e start input) : l.safeEnd = start + input.length := by
  rw [Layer.safeEnd, h.start_eq, h.done]

theorem stop_eq (h : l.Serves t ring e start input) : l.stop = start + e.size := by
  rw [Layer.stop, h.start_eq, h.size_eq]

theorem extent_eq (h : l.Serves t ring e start input) : l.extent = ⟨start, start + e.size⟩ := by
  rw [Layer.extent, h.start_eq, h.stop_eq]

theorem frame (h : l.Serves t ring e start input)
    (hu : Serving (t ++ u) l.contexts (e.strands ring input)) :
    l.Serves (t ++ u) ring e start input :=
  { h with serving := hu }

end Layer.Serves

/-! ### Chains -/

namespace Chain

variable {c : Chain} {l l' : Layer}

/-- The operations of the layers inside the outer one. -/
def innerContexts (c : Chain) : List Context := c.layers.tail.flatMap Layer.contexts

theorem contexts_undecided (l : Layer) : (undecided l).contexts = l.contexts := List.append_nil _

theorem contexts_single (l : Layer) : (single l).contexts = l.contexts := List.append_nil _

theorem contexts_nested (l m : Layer) : (nested l m).contexts = l.contexts ++ m.contexts :=
  congrArg (l.contexts ++ ·) (List.append_nil _)

theorem innerContexts_nested (l m : Layer) : (nested l m).innerContexts = m.contexts :=
  List.append_nil _

theorem contexts_eq (h : c.outer? = some l) : c.contexts = l.contexts ++ c.innerContexts := by
  cases c <;> cases h <;> rfl

theorem contexts_withOuter (h : c.outer? = some l) :
    (c.withOuter l').contexts = l'.contexts ++ c.innerContexts := by
  cases c <;> cases h <;> rfl

end Chain

/-- The chain has the layers that the progress speaks of. -/
inductive Progress.Carried (t : Trace) (ring : KeyRing) (p : Progress) (c : Chain) : Prop where
  | undecided {e : Envelope} {l : Layer} (hout : p.outline = .undecided e)
      (hchain : c = .undecided l) (hl : l.Serves t ring e 0 p.outerInput)
  | single {e : Envelope} {l : Layer} (hout : p.outline = .single e)
      (hchain : c = .single l) (hl : l.Serves t ring e 0 p.outerInput)
  | nested {e i : Envelope} {l m : Layer} (hout : p.outline = .nested e i)
      (hchain : c = .nested l m) (hl : l.Serves t ring e 0 p.outerInput)
      (hm : m.Serves t ring i Header.size (p.innerInput ring))

namespace Progress.Carried

variable {t u : Trace} {ring : KeyRing} {p : Progress} {c : Chain}

theorem outer (h : p.Carried t ring c) :
    ∃ l, c.outer? = some l ∧ l.Serves t ring p.outline.outer 0 p.outerInput := by
  cases h with
  | @undecided e l hout hchain hl => exact ⟨l, by rw [hchain]; rfl, by rw [hout]; exact hl⟩
  | @single e l hout hchain hl => exact ⟨l, by rw [hchain]; rfl, by rw [hout]; exact hl⟩
  | @nested e i l m hout hchain hl hm => exact ⟨l, by rw [hchain]; rfl, by rw [hout]; exact hl⟩

theorem inner (h : p.Carried t ring c) :
    Serving t c.innerContexts (p.outline.innerStrands ring (p.innerInput ring)) := by
  cases h with
  | undecided hout hchain hl => rw [hout, hchain]; exact .nil
  | single hout hchain hl => rw [hout, hchain]; exact .nil
  | @nested e i l m hout hchain hl hm =>
    rw [hout, hchain, Chain.innerContexts_nested]
    exact hm.serving

/-- As long as the chain is undecided, so is the outline. -/
theorem of_undecided {l : Layer} (h : p.Carried t ring c) (hc : c = .undecided l) :
    ∃ e, p.outline = .undecided e ∧ l.Serves t ring e 0 p.outerInput := by
  subst hc
  cases h with
  | undecided hout hchain hl =>
    cases hchain
    exact ⟨_, hout, hl⟩
  | single _ hchain | nested _ hchain => cases hchain

/-- All operations have been fed as far as the progress says. -/
theorem serving (h : p.Carried t ring c) : Serving t c.contexts (p.strands ring) := by
  obtain ⟨l, houter, hl⟩ := h.outer
  rw [Chain.contexts_eq houter]
  exact List.rel_append hl.serving h.inner

theorem take (h : p.Carried t ring c) {o : Opening} (hp : p.Sound o) (more : Bytes) :
    (p.take more).Carried t ring c := by
  have houter := hp.outerInput_take more
  cases h with
  | undecided hout hchain hl => exact .undecided hout hchain (houter ▸ hl)
  | single hout hchain hl => exact .single hout hchain (houter ▸ hl)
  | nested hout hchain hl hm =>
    exact .nested hout hchain (houter ▸ hl) (hp.innerInput_take more ring ▸ hm)

/-- The outer operations run while the inner ones are left alone. -/
theorem withOuter (h : p.Carried t ring c) {o : Opening} (hp : p.Sound o) {l' : Layer}
    (hl' : l'.Serves (t ++ u) ring p.outline.outer 0 p.runOuter.outerInput)
    (hinner : Serving (t ++ u) c.innerContexts (p.outline.innerStrands ring (p.innerInput ring))) :
    p.runOuter.Carried (t ++ u) ring (c.withOuter l') := by
  have hsame := hp.innerInput_runOuter ring
  cases h with
  | undecided hout hchain hl =>
    rw [hout] at hl'
    rw [hchain]
    exact .undecided hout rfl hl'
  | single hout hchain hl =>
    rw [hout] at hl'
    rw [hchain]
    exact .single hout rfl hl'
  | @nested e i l m hout hchain hl hm =>
    rw [hout] at hl'
    rw [hout, hchain, Chain.innerContexts_nested] at hinner
    rw [hchain]
    exact .nested hout rfl hl' (hsame ▸ hm.frame hinner)

/-- How much of the destination is output, once it is settled what is inside. -/
theorem safe?_eq (h : p.Carried t ring c) {o : Opening} (hp : p.Sound o) (hring : ring = o.ring) :
    c.safe? = match p.outline with
      | .undecided _ => none
      | .single _ | .nested _ _ => some p.safe := by
  subst hring
  cases h with
  | @undecided e l hout hchain hl => rw [hout, hchain]; rfl
  | @single e l hout hchain hl =>
    simp only [hout, hchain, Chain.safe?, Progress.safe]
    rw [hl.safeEnd_eq, hp.length_outerInput, Nat.zero_add]
  | @nested e i l m hout hchain hl hm =>
    simp only [hout, hchain, Chain.safe?, Progress.safe]
    rw [hl.safeEnd_eq, hm.safeEnd_eq, hm.stop_eq, hp.length_outerInput, hp.length_innerInput,
      Nat.zero_add]
    by_cases hlt : p.innerDone < i.size
    · rw [if_pos (by omega), if_pos hlt]
    · rw [if_neg (by omega), if_neg hlt]

end Progress.Carried

/-! ### Sessions -/

/-- The progress is on this image. -/
structure Progress.Treats (o : Opening) (image : Bytes) (p : Progress) : Prop where
  outer : o.outer image = .ok p.outline.outer
  raw : p.raw = p.outline.outer.payload image

namespace Progress.Treats

variable {o : Opening} {image : Bytes} {p : Progress}

theorem settle (h : p.Treats o image) (outline : Outline)
    (hout : outline.outer = p.outline.outer) : (p.settle outline).Treats o image :=
  ⟨h.outer.trans (congrArg _ hout.symm), h.raw.trans (congrArg (Envelope.payload · image) hout.symm)⟩

/-- What has been fed is a beginning of what the image gives to feed. -/
theorem strands_begin (h : p.Treats o image) (hp : p.Sound o) :
    Begins (p.strands o.ring) (o.strands image) := by
  have hstrands : o.strands image = o.strandsOf p.outline.outer p.raw := by
    rw [Opening.strands, h.outer, h.raw]
  rw [hstrands]
  exact hp.strands_begin

end Progress.Treats

namespace Session

/-- What a session starts from. -/
def opening (s : Session) : Opening where
  board := s.platform.board
  ring := ⟨s.keys, s.platform.cache.effective s.keys.cmac⟩
  source := s.source
  permitted := s.permitted
  dest := s.dest

/-- What does not change as long as a session is open, and the calls made in it so far. -/
structure Rooted (o : Opening) (t : Trace) (s : Session) : Prop where
  since : Board.Since o.board s.platform.board t
  subkeys : s.platform.cache.effective o.ring.keys.cmac = o.ring.subkeys
  source : s.source = o.source
  keys : s.keys = o.ring.keys

/-- The session has just been opened, and nothing has been set up so far. -/
structure Awaits (o : Opening) (policy : NvidiaPolicy) (t : Trace) (s : Session) : Prop
    extends Rooted o t s where
  operations : t.operations = []
  permitted : s.permitted = o.permitted
  policy : s.nvidiaHeader = policy
  phase : s.phase = .awaitingHeader
  window : s.window = ⟨o.dest.length, 0, 0⟩
  dest : s.dest = o.dest
  chain : s.chain = .empty

/-- The session has made this progress. -/
structure Shows (o : Opening) (policy : NvidiaPolicy) (p : Progress) (t : Trace) (s : Session) : Prop
    extends Rooted o t s where
  permitted : s.permitted = p.outline.permitted o.permitted
  policy : s.nvidiaHeader = policy
  phase : s.phase = .processing
  capacity : s.window.capacity = o.dest.length
  filled : s.window.filled = p.raw.length
  safe_le : s.window.safe ≤ p.safe
  dest : s.dest = p.buffer o.ring o.dest
  chain : p.Carried t o.ring s.chain
  operations : t.operations = s.chain.contexts.map Context.operation

/-- The session has made all the progress that it can make on an image. -/
def At (o : Opening) (policy : NvidiaPolicy) (image : Bytes) (s : Session) : Prop :=
  ∃ outline t, o.outline image = .ok outline ∧
    (Progress.reached outline (outline.outer.payload image)).Sound o ∧
    s.Shows o policy (.reached outline (outline.outer.payload image)) t ∧
    s.window.safe = (Progress.reached outline (outline.outer.payload image)).safe

theorem At.phase {o : Opening} {policy : NvidiaPolicy} {image : Bytes} {s : Session}
    (h : s.At o policy image) : s.phase = .processing := by
  obtain ⟨outline, t, -, -, hshows, -⟩ := h
  exact hshows.phase

/-- The operations of a session on an image are accounted for. -/
structure Accounted (o : Opening) (image : Bytes) (t : Trace) (s : Session) : Prop where
  since : Board.Since o.board s.platform.board t
  live_iff : ∀ id, t.Live id ↔ id ∈ s.chain.contexts.map Context.id
  ids_nodup : (s.chain.contexts.map Context.id).Nodup
  honours : t.Honours t.operations (o.strands image)

/-- How a push fails: the operations are accounted for, and without faults it is because the image
is refused. -/
def Refused (o : Opening) (image : Bytes) (e : Error) (s : Session) : Prop :=
  (∃ t, s.Accounted o image t) ∧ (o.board.faults = [] → o.outline image = .error e)

/-- Any failure is justified once a fault can have struck. -/
theorem Accounted.refused {o : Opening} {image : Bytes} {t : Trace} {s : Session} {e : Error}
    (h : s.Accounted o image t) (hfaulty : o.board.Faulty) : s.Refused o image e :=
  ⟨⟨t, h⟩, fun hnone => absurd hnone hfaulty.faults_ne_nil⟩

theorem Awaits.accounted {o : Opening} {policy : NvidiaPolicy} {t : Trace} {s : Session}
    (h : s.Awaits o policy t) (image : Bytes) : s.Accounted o image t where
  since := h.since
  live_iff := fun id => by
    rw [h.chain, Trace.Live, Trace.opened_iff_mem, h.operations]
    exact ⟨fun hlive => absurd hlive.1 List.not_mem_nil, fun hid => absurd hid List.not_mem_nil⟩
  ids_nodup := by
    rw [h.chain]
    exact List.nodup_nil
  honours := by
    rw [h.operations]
    exact .nil ..

section Shows

variable {o : Opening} {policy : NvidiaPolicy} {p : Progress} {t : Trace} {s : Session}
  {image : Bytes}

theorem Shows.ids_nodup (h : s.Shows o policy p t) : (s.chain.contexts.map Context.id).Nodup := by
  have hnodup := h.since.orderly.ids_nodup
  rw [h.operations, List.map_map] at hnodup
  exact hnodup

theorem Shows.live_iff (h : s.Shows o policy p t) (id : Nat) :
    t.Live id ↔ id ∈ s.chain.contexts.map Context.id := by
  constructor
  · rintro ⟨hopened, -⟩
    rw [Trace.opened_iff_mem, h.operations, List.map_map] at hopened
    exact hopened
  · intro hid
    obtain ⟨c, hc, rfl⟩ := List.mem_map.mp hid
    obtain ⟨strand, -, hfed⟩ := h.chain.serving.fed_of_mem hc
    exact hfed.live

/-- A session that only uses its own operations, and feeds them what they are to be fed, accounts
for them. -/
theorem Shows.accounted_append (h : s.Shows o policy p t) {q : Progress} {u : Trace} {s' : Session}
    (hq : q.Sound o) (htreats : q.Treats o image) (hchain : s'.chain = s.chain)
    (hs' : Board.Since o.board s'.platform.board (t ++ u))
    (hu : u.Uses (s.chain.contexts.map Context.id))
    (hkeeps : List.Forall₂ (Operation.Keeps (t ++ u)) (s.chain.contexts.map Context.operation)
      (q.strands o.ring)) : s'.Accounted o image (t ++ u) where
  since := hs'
  live_iff := fun id => by rw [hu.live_iff, h.live_iff, hchain]
  ids_nodup := by
    rw [hchain]
    exact h.ids_nodup
  honours := by
    rw [Trace.operations_append, hu.operations_eq_nil, List.append_nil, h.operations]
    exact (Trace.Honours.of_forall₂ hkeeps).begin_with (htreats.strands_begin hq)

theorem Shows.accounted (h : s.Shows o policy p t) (hp : p.Sound o) (htreats : p.Treats o image) :
    s.Accounted o image t := by
  have hkeeps := h.chain.serving.keeps_own
  have haccounted : s.Accounted o image (t ++ []) := by
    refine h.accounted_append hp htreats rfl ?_ (Trace.uses_nil _) ?_
    · rw [List.append_nil]
      exact h.since
    · rw [List.append_nil]
      exact hkeeps
  rwa [List.append_nil] at haccounted

end Shows

end Session

end SecureBoot
