import SecureBoot.Proofs.Parallel
import SecureBoot.Proofs.Tampering

/-!
Sessions are blind to the unsigned bytes of the outer header, its magic aside, until they are
finalized. Two headers with the same signed section lead to the same calls but for the signatures that
operations are set up to expect (`Event.Mirrors`), and the engine works the same whatever it is to
expect, so the likeness `unsigned` is lawful. Images that differ in such bytes only (`SameSigned`) thus
keep two sessions `Session.Paired`, request after request, and a finalize, which does look at the
signatures, looks at no more of them than the mode of the outer header says
(`Session.Paired.finalize_eq`).
-/

namespace SecureBoot

open Step

/-! ### Calls that expect different signatures -/

/-- The same call, but perhaps with another expected signature. -/
inductive Event.Mirrors : Event → Event → Prop where
  | same (e : Event) : Mirrors e e
  | init (algorithm : Algorithm) (setup : Setup) {expected : Bytes} (result : Except Error Nat)
      (hlength : expected.length = setup.expected.length) :
      Mirrors (.init algorithm setup result)
        (.init algorithm { setup with expected := expected } result)

namespace Event.Mirrors

variable {e e' : Event}

theorem call?_eq (h : e.Mirrors e') : e'.call? = e.call? := by
  cases h <;> rfl

theorem opened?_eq (h : e.Mirrors e') : e'.opened? = e.opened? := by
  cases h with
  | same => rfl
  | init _ _ result => cases result <;> rfl

end Event.Mirrors

/-- The same calls, up to the expected signatures. -/
def Trace.Mirrors : Trace → Trace → Prop := List.Forall₂ Event.Mirrors

theorem Trace.Mirrors.countP_eq {t t' : Trace} (h : t.Mirrors t') {p : Event → Bool}
    (hp : ∀ e e', e.Mirrors e' → p e' = p e) : t'.countP p = t.countP p := by
  induction h with
  | nil => rfl
  | cons he _ ih => rw [List.countP_cons, List.countP_cons, hp _ _ he, ih]

/-- Boards that the same faults strike, with the same calls on record, up to the expected signatures. -/
structure Board.Mirrors (b b' : Board) : Prop where
  faults : b'.faults = b.faults
  trace : Trace.Mirrors b.trace b'.trace

namespace Board.Mirrors

variable {b b' : Board}

theorem refl (b : Board) : b.Mirrors b := ⟨rfl, List.forall₂_same.mpr fun e _ => .same e⟩

theorem fault?_eq (h : b.Mirrors b') (call : Call) : b'.fault? call = b.fault? call := by
  have hcount : b'.count call = b.count call :=
    h.trace.countP_eq fun e e' he => by rw [he.call?_eq]
  rw [fault?, fault?, h.faults, hcount]

theorem nextId_eq (h : b.Mirrors b') : b'.nextId = b.nextId :=
  h.trace.countP_eq fun e e' he => by rw [he.opened?_eq]

theorem record (h : b.Mirrors b') {e e' : Event} (he : e.Mirrors e') :
    (b.record e).Mirrors (b'.record e') :=
  ⟨h.faults, List.rel_append h.trace (.cons he .nil)⟩

end Board.Mirrors

/-! ### Operations that expect different signatures -/

/-- The signature that an operation is set up to expect for a header. -/
def Header.expected (h : Header) : Algorithm → Bytes
  | .aesCbcDecrypt => []
  | .aesCmac => h.cmac
  | .rsaPss => h.rsaSignature
  | .ecdsa => h.ecdsaSignature

/-- The operation with another signature to expect. -/
def Context.expecting (expected : Bytes) (c : Context) : Context :=
  { c with setup := { c.setup with expected := expected } }

theorem Context.feed_expecting (expected : Bytes) (c : Context) (data : Bytes) :
    (c.expecting expected).feed data =
      (c.feed data).map fun r => (r.1.expecting expected, r.2) := by
  unfold feed
  rw [apply_ite (Except.map _), apply_ite (Except.map _)]
  rfl

namespace Header

variable {h h' : Header}

theorem length_signature (h : Header) : h.signature.length = 256 := by
  simp [signature, get, Block.field, Field.width, Field.start]

theorem length_expected_eq (h h' : Header) (algorithm : Algorithm) :
    (h'.expected algorithm).length = (h.expected algorithm).length := by
  cases algorithm with
  | aesCbcDecrypt => rfl
  | aesCmac | rsaPss | ecdsa =>
    simp only [expected, cmac, rsaSignature, ecdsaSignature, List.length_take, length_signature]

theorem setup_eq_of_signedSection (hs : h'.signedSection = h.signedSection) (algorithm : Algorithm)
    (key : Key) :
    h'.setup algorithm key = { h.setup algorithm key with expected := h'.expected algorithm } := by
  simp only [setup, coveredSize, length_eq_of_signedSection hs, iv_eq_of_signedSection hs]
  rfl

end Header

/-- Two runs on headers with the same signed section, which differ in the expected signatures only. -/
def unsigned : Likeness where
  board := Board.Mirrors
  cache := Eq
  header h h' := h'.signedSection = h.signedSection
  context h h' c c' := c.setup.expected = h.expected c.algorithm ∧
    c' = c.expecting (h'.expected c.algorithm)
  mode _ := True

section Unsigned

variable {h h' : Header}

/-- A call that is answered the same is made in lockstep. -/
theorem lockstep_mirrors {α : Type} {call : Call} {answer answer' : Board → Except Error α}
    {event event' : Except Error α → Event} (hanswer : ∀ b b', b.Mirrors b' → answer' b' = answer b)
    (hevent : ∀ r, (event r).Mirrors (event' r)) :
    Lockstep Board.Mirrors Eq (Board.perform call answer event)
      (Board.perform call answer' event') := by
  refine Board.lockstep_perform id (fun b b' hb => hb.fault?_eq call) ?_ (fun _ _ _ => rfl) ?_
  · intro b b' hb
    rw [Except.map_id]
    exact hanswer b b' hb
  · intro b b' r hb
    rw [Except.map_id]
    exact hb.record (hevent r)

theorem lockstep_subkeysFor (algorithm : Algorithm) (key : Key) :
    Lockstep unsigned.Platforms Eq (Platform.subkeysFor algorithm key)
      (Platform.subkeysFor algorithm key) := by
  have hsubkeys : ∀ slot, Lockstep unsigned.Platforms Eq (Platform.subkeys slot)
      (Platform.subkeys slot) := by
    intro slot
    refine Lockstep.bind (lockstep_get.bind ?_) ?_ (W := Eq)
    · rintro p p' ⟨-, hcache⟩
      have hcache : p.cache = p'.cache := hcache
      rw [hcache]
      split
      · exact lockstep_pure rfl
      · exact Likeness.lockstep_onBoard (lockstep_mirrors (fun _ _ _ => rfl) fun _ => .same _)
    · rintro keys _ rfl
      refine (lockstep_modify ?_).bind fun _ _ _ => lockstep_pure rfl
      rintro p p' ⟨hboard, hcache⟩
      exact ⟨hboard, congrArg (SubkeyCache.touch · slot keys) hcache⟩
  unfold Platform.subkeysFor
  split
  · exact (hsubkeys _).map fun _ _ => congrArg some
  · exact lockstep_pure rfl

theorem lockstep_start_expecting (hs : h'.signedSection = h.signedSection) (algorithm : Algorithm)
    (key : Key) (subkeys : Option Subkeys) :
    Lockstep Board.Mirrors (unsigned.context h h')
      (Board.start algorithm { h.setup algorithm key with subkeys := subkeys })
      (Board.start algorithm { h'.setup algorithm key with subkeys := subkeys }) := by
  rw [Header.setup_eq_of_signedSection hs]
  refine Lockstep.bind (lockstep_mirrors ?_ ?_) ?_
  · intro b b' hb
    rw [hb.nextId_eq]
  · exact fun r => .init algorithm { h.setup algorithm key with subkeys := subkeys } r
      (Header.length_expected_eq h h' algorithm)
  · rintro id _ rfl
    exact lockstep_pure ⟨rfl, rfl⟩

theorem lawful_unsigned : unsigned.Lawful where
  header_refl _ := rfl
  signedSection := id
  algorithm := by
    rintro _ _ c _ ⟨-, rfl⟩
    rfl
  openContext := by
    rintro mode h h' - hs keys algorithm -
    have hkey : h'.keyIndex = h.keyIndex := Header.keyIndex_eq_of_signedSection hs
    unfold Platform.openContext
    rw [hkey]
    refine (lockstep_ofExcept _).bind ?_
    rintro _ key ⟨rfl, -⟩
    refine (lockstep_subkeysFor algorithm key).bind ?_
    rintro subkeys _ rfl
    exact Likeness.lockstep_onBoard (lockstep_start_expecting hs algorithm key subkeys)
  process := by
    rintro h h' c _ ⟨hexpected, rfl⟩ data
    refine Board.lockstep_perform (fun r => (r.1.expecting (h'.expected c.algorithm), r.2))
      (fun b b' hb => hb.fault?_eq _) (fun _ _ _ => c.feed_expecting _ data) ?_ ?_
    · intro _ r hr
      have hjob : r.1.job = c.job := congrArg Operation.toJob (Context.of_feed hr).1
      obtain ⟨halgorithm, hsetup⟩ := Job.mk.inj hjob
      refine ⟨⟨?_, ?_⟩, rfl⟩
      · rw [halgorithm, hsetup, hexpected]
      · rw [halgorithm]
    · intro b b' r hb
      have hrecord := hb.record (.same (.process c.id data (r.map (·.2))))
      cases r <;> exact hrecord
  finalize := by
    rintro c _ ⟨_, _, -, rfl⟩ hverdict
    exact lockstep_mirrors (fun _ _ _ => hverdict) fun _ => .same _
  close := by
    rintro c _ b b' hb ⟨_, _, -, rfl⟩
    exact hb.record (.same _)

/-- Operations that expect the same signatures come to the same verdicts, being the same. -/
theorem agree_of_expected {contexts contexts' : List Context}
    (hcontexts : unsigned.Contexts h h' contexts contexts')
    (hexpected : ∀ c ∈ contexts, h'.expected c.algorithm = h.expected c.algorithm) :
    List.Forall₂ unsigned.Agree contexts contexts' := by
  refine ((List.forall₂_and_left contexts contexts').mpr ⟨hexpected, hcontexts⟩).imp ?_
  rintro c c' ⟨hsame, hc⟩
  refine ⟨⟨_, _, hc⟩, ?_⟩
  obtain ⟨hstored, rfl⟩ := hc
  rw [hsame, ← hstored]
  rfl

/-- So do those of chains whose outer headers have the signatures that these operations expect. -/
theorem agree_of_outer {c c' : Chain} (hchain : unsigned.Chains c c')
    (hexpected : ∀ l l', c.outer? = some l → c'.outer? = some l' →
      ∀ k ∈ l.contexts, l'.header.expected k.algorithm = l.header.expected k.algorithm) :
    List.Forall₂ unsigned.Agree c.contexts c'.contexts := by
  cases hchain with
  | empty => exact .nil
  | undecided hl | single hl =>
    simp only [Chain.contexts_undecided, Chain.contexts_single]
    exact agree_of_expected hl.contexts (hexpected _ _ rfl rfl)
  | nested hl hi hsame =>
    rw [Chain.contexts_nested, Chain.contexts_nested]
    exact List.rel_append (agree_of_expected hl.contexts (hexpected _ _ rfl rfl))
      (agree_of_expected hi.contexts fun _ _ => by rw [hsame])

end Unsigned

/-! ### Images that differ in unsigned bytes -/

/-- The images are the same, but perhaps for bytes of the outer header behind its magic that its
signature does not cover. -/
def SameSigned (image image' : Bytes) : Prop :=
  ∀ i, i < 4 ∨ Header.signedStart ≤ i → image'[i]? = image[i]?

namespace SameSigned

variable {a a' b b' : Bytes}

theorem slice_eq (h : SameSigned b b') {start : Nat} (hstart : Header.signedStart ≤ start)
    (width : Nat) : slice b' start width = slice b start width := by
  apply List.ext_getElem?
  intro i
  rw [getElem?_slice, getElem?_slice, h (start + i) (.inr (by omega))]

theorem of_append (h : SameSigned (a ++ b) (a' ++ b')) (hlength : a'.length = a.length) :
    SameSigned a a' := by
  intro i hi
  by_cases hlt : i < a.length
  · have hleft : (a ++ b)[i]? = a[i]? := List.getElem?_append_left hlt
    rw [← hleft, ← h i hi, List.getElem?_append_left (hlength ▸ hlt)]
  · rw [List.getElem?_eq_none (by omega), List.getElem?_eq_none (by omega)]

theorem append (h : SameSigned a a') (hlength : a'.length = a.length) (b : Bytes) :
    SameSigned (a ++ b) (a' ++ b) := by
  intro i hi
  rw [List.getElem?_append, List.getElem?_append, hlength, h i hi]

theorem rest_eq (h : SameSigned (a ++ b) (a' ++ b')) (hlength : a'.length = a.length)
    (hstart : Header.signedStart ≤ a.length) : b' = b := by
  apply List.ext_getElem?
  intro i
  have hi := h (a.length + i) (.inr (by omega))
  rwa [← hlength, List.getElem?_append_right (by omega), hlength,
    List.getElem?_append_right (by omega), Nat.add_sub_cancel_left] at hi

theorem openings (h : SameSigned b b') (hlength : b'.length = b.length) :
    unsigned.Openings b b' where
  length := hlength
  announced := by
    have hmagic : b'.take 4 = b.take 4 := by
      apply List.ext_getElem?
      intro i
      rw [List.getElem?_take, List.getElem?_take]
      split
      · exact h i (.inl ‹_›)
      · rfl
    rw [Header.Announced, Header.Announced, hmagic]
  header := by
    intro g g' hg hg'
    change g'.field Header.signedStart Header.signedSize =
      g.field Header.signedStart Header.signedSize
    rw [Header.field_eq_slice hg (Nat.le_refl _), Header.field_eq_slice hg' (Nat.le_refl _),
      h.slice_eq (Nat.le_refl _)]
  payload := by
    apply List.ext_getElem?
    intro i
    have hi : Header.signedStart ≤ Header.size + i := Nat.le_add_right_of_le (by decide)
    rw [List.getElem?_drop, List.getElem?_drop, h _ (.inr hi)]

end SameSigned

/-- Writing a field that is not signed, other than the magic, changes nothing in this sense. -/
theorem Header.sameSigned_set (h : Header) {f : Field} (hstart : 4 ≤ f.start)
    (hstop : f.start + f.width ≤ signedStart) (value : Bytes) :
    SameSigned h.bytes (h.set f value).bytes := by
  intro i hi
  have hfit := f.start_add_width_le
  change (overwrite h.bytes f.start (fit f.width value))[i]? = _
  rw [getElem?_overwrite _ _ _ _ (by simpa using hfit), if_neg]
  rw [length_fit]
  omega

/-- Bytes of the signature field, from its start, that take part in the verdict. -/
def CryptoMode.signatureSize : CryptoMode → Nat
  | .symmetric => 16
  | .oemEcc => 96
  | .oemRsa | .oemRsaEncrypted | .nvidiaRsa => 256

theorem CryptoMode.signatureSize_le (m : CryptoMode) : m.signatureSize ≤ 256 := by
  cases m <;> decide

theorem Header.expected_eq_take (h : Header) {mode : CryptoMode} {algorithm : Algorithm}
    (halgorithm : algorithm ∈ mode.plan) :
    h.expected algorithm =
      if algorithm.verifies then h.signature.take mode.signatureSize else [] := by
  cases mode <;> cases algorithm <;> first | rfl | exact absurd halgorithm (by decide)

theorem Header.take_signature {h : Header} {image : Bytes} (hheader : image.take size = h.bytes)
    {n : Nat} (hn : n ≤ 256) : h.signature.take n = slice image Field.signature.start n := by
  have hsignature : h.signature = slice image Field.signature.start 256 :=
    field_eq_slice hheader (Field.start_add_width_le .signature)
  rw [hsignature, slice, slice, List.take_take, Nat.min_eq_left hn]

/-- Only the signature bytes that a mode looks at are expected of its operations. -/
theorem Header.expected_eq_of_field {h h' : Header} {image image' : Bytes}
    (hheader : image.take size = h.bytes) (hheader' : image'.take size = h'.bytes)
    {mode : CryptoMode} {algorithm : Algorithm} (halgorithm : algorithm ∈ mode.plan)
    (hfield : ∀ i < mode.signatureSize,
      image'[Field.signature.start + i]? = image[Field.signature.start + i]?) :
    h'.expected algorithm = h.expected algorithm := by
  have hle : mode.signatureSize ≤ 256 := mode.signatureSize_le
  have hslice : slice image' Field.signature.start mode.signatureSize =
      slice image Field.signature.start mode.signatureSize := by
    apply List.ext_getElem?
    intro i
    rw [getElem?_slice, getElem?_slice]
    split
    · exact hfield i ‹_›
    · rfl
  rw [h'.expected_eq_take halgorithm, h.expected_eq_take halgorithm,
    take_signature hheader hle, take_signature hheader' hle, hslice]

theorem Header.job_mem_of_mem_strands {h : Header} {jobs : List Job} {payload : Bytes} {s : Strand}
    (hs : s ∈ h.strands jobs payload) : s.job ∈ jobs := by
  induction jobs generalizing payload with
  | nil => cases hs
  | cons j rest ih =>
    rcases List.mem_cons.mp hs with rfl | hs
    · exact List.mem_cons_self
    · exact List.mem_cons_of_mem _ (ih hs)

/-! ### Sessions side by side -/

namespace Session

variable {o : Opening} {image image' : Bytes} {s s' : Session}

/-- The same request, but perhaps for the bytes that it brings. -/
inductive Request.Similar : Request → Request → Prop where
  | push {chunk chunk' : Bytes} (first : Bool) (hlength : chunk'.length = chunk.length) :
      Similar (.push chunk first) (.push chunk' first)
  | requireNvidia (policy : NvidiaPolicy) : Similar (.requireNvidia policy) (.requireNvidia policy)
  | finalize : Similar .finalize .finalize

theorem Request.Similar.length_chunk {r r' : Request} (h : r.Similar r') :
    r'.chunk.length = r.chunk.length := by
  cases h with
  | push first hlength => exact hlength
  | requireNvidia | finalize => rfl

theorem Request.Similar.length_pushed {asked asked' : List Request}
    (h : List.Forall₂ Similar asked asked') : (pushed asked').length = (pushed asked).length := by
  induction h with
  | nil => rfl
  | cons hr _ ih =>
    simp only [pushed, List.flatMap_cons, List.length_append] at ih ⊢
    rw [hr.length_chunk, ih]

/-- The calls that a session makes for a request. -/
def callsFor (s : Session) (r : Request) : Trace :=
  (s.answer r).2.board.trace.drop s.board.trace.length

/-- A session that takes up payload has been pushed a header. -/
theorem Coherent.size_le (h : s.Coherent o image) (hphase : s.phase = .processing) :
    Header.size ≤ image.length := by
  obtain ⟨policy, outline, t, houtline, -⟩ := h.exists_at hphase
  exact (Opening.length_of_outer_eq_ok (Opening.outline_eq_ok_iff.mp houtline).1).1

/-- The outer header is the one that the image begins with, and it has the operations of its mode. -/
theorem Coherent.exists_outer (h : s.Coherent o image) (hphase : s.phase = .processing) :
    ∃ l, s.chain.outer? = some l ∧ image.take Header.size = l.header.bytes ∧
      ∀ c ∈ l.contexts, c.algorithm ∈ l.mode.plan := by
  obtain ⟨policy, outline, t, houtline, -, hshows, -⟩ := h.exists_at hphase
  obtain ⟨l, houter, hl⟩ := hshows.chain.outer
  have hparse := (Opening.outer_eq_ok_iff.mp (Opening.outline_eq_ok_iff.mp houtline).1).1
  refine ⟨l, houter, ?_, fun c hc => ?_⟩
  · rw [hl.header]
    exact (Header.parse_eq_some_iff.mp hparse).2.1
  · obtain ⟨strand, hstrand, hfed⟩ := hl.serving.fed_of_mem hc
    obtain ⟨algorithm, halgorithm, hjob⟩ := List.mem_map.mp (Header.job_mem_of_mem_strands hstrand)
    have hsame : c.algorithm = algorithm := by
      rw [← hfed.job_eq] at hjob
      exact congrArg Job.algorithm hjob.symm
    rw [hl.mode, hsame]
    exact halgorithm

/-- Two sessions that have been pushed images of the same length, and stand as if these were the same,
but for the signatures that their operations expect, or have both stopped. -/
structure Paired (o : Opening) (image image' : Bytes) (s s' : Session) : Prop where
  coherent : s.Coherent o image
  coherent' : s'.Coherent o image'
  length : image'.length = image.length
  twins : unsigned.Sessions s s' ∨ s.Stopped ∧ s'.Stopped ∧ s.Resembles s'

namespace Paired

theorem resembles (h : s.Paired o image image' s') : s.Resembles s' := by
  obtain hsessions | ⟨-, -, hresembles⟩ := h.twins
  · exact hsessions.resembles lawful_unsigned
  · exact hresembles

variable {r r' : Request}

/-- The push that brings the header finds the same signed section, and all others the same bytes. -/
theorem sameEnd_push (h : s.Paired o image image' s') (hsessions : unsigned.Sessions s s')
    {chunk chunk' : Bytes} (hlength : chunk'.length = chunk.length)
    (hsame : SameSigned (image ++ chunk) (image' ++ chunk')) (first : Bool) :
    SameEnd Eq unsigned.Sessions ((Session.push chunk first).run s)
      ((Session.push chunk' first).run s') := by
  refine lawful_unsigned.sameEnd_push hsessions first (fun hphase => ?_) fun hphase => ?_
  · obtain ⟨rfl, -⟩ := h.coherent.exists_awaits hphase
    obtain rfl := List.eq_nil_of_length_eq_zero h.length
    exact hsame.openings hlength
  · have hsize := h.coherent.size_le hphase
    exact hsame.rest_eq h.length (Nat.le_trans (by decide) hsize)

/-- Nothing but a finalize tells the sessions apart. -/
theorem answer_of_sessions (h : s.Paired o image image' s') (hsessions : unsigned.Sessions s s')
    (hr : r.Similar r') (hsame : SameSigned (image ++ r.chunk) (image' ++ r'.chunk))
    (hfinalize : r ≠ .finalize) :
    (s'.answer r').1 = (s.answer r).1 ∧ unsigned.Sessions (s.answer r).2 (s'.answer r').2 := by
  cases hr with
  | push first hlength =>
    have hends := h.sameEnd_push hsessions hlength hsame first
    exact ⟨congrArg Answer.push hends.outcome_eq, hends.final⟩
  | requireNvidia policy =>
    obtain ⟨hmode, hplatform, hchain⟩ := hsessions
    exact ⟨rfl, .mk hmode hplatform hchain⟩
  | finalize => exact absurd rfl hfinalize

theorem answer (h : s.Paired o image image' s') (hr : r.Similar r')
    (hsame : SameSigned (image ++ r.chunk) (image' ++ r'.chunk)) :
    (s.answer r).2.Paired o (image ++ r.chunk) (image' ++ r'.chunk) (s'.answer r').2 where
  coherent := h.coherent.answer r
  coherent' := h.coherent'.answer r'
  length := by rw [List.length_append, List.length_append, h.length, hr.length_chunk]
  twins := by
    obtain hsessions | ⟨hstopped, hstopped', hresembles⟩ := h.twins
    · by_cases hfinalize : r = .finalize
      · subst hfinalize
        cases hr
        have hphase : (finalize.final s').phase = (finalize.final s).phase := by
          rw [s.final_finalize.1, s'.final_finalize.1, h.resembles.phase]
        exact .inr ⟨Stops.finalized.stopped, Stops.finalized.stopped,
          h.resembles.of_stands s.stands_finalize s'.stands_finalize hphase⟩
      · exact .inl (h.answer_of_sessions hsessions hr hsame hfinalize).2
    · right
      rw [answer_of_stopped hstopped, answer_of_stopped hstopped']
      refine ⟨hstopped.idle r, hstopped'.idle r', hresembles.of_stands (s.stands_idle r)
        (s'.stands_idle r') ?_⟩
      cases hr with
      | push => rfl
      | requireNvidia | finalize => exact hresembles.phase

theorem after (h : s.Paired o image image' s') {asked asked' : List Request}
    (hasked : List.Forall₂ Request.Similar asked asked')
    (hsame : SameSigned (image ++ pushed asked) (image' ++ pushed asked')) :
    (s.after asked).Paired o (image ++ pushed asked) (image' ++ pushed asked') (s'.after asked') := by
  induction hasked generalizing s s' image image' with
  | nil =>
    simp only [pushed, List.flatMap_nil, List.append_nil]
    exact h
  | @cons r r' rest rest' hr _ ih =>
    have hpushed : ∀ (image : Bytes) (r : Request) (rest : List Request),
        image ++ pushed (r :: rest) = image ++ r.chunk ++ pushed rest := fun image r rest =>
      (List.append_assoc ..).symm
    rw [hpushed, hpushed] at hsame ⊢
    have hlength : (image' ++ r'.chunk).length = (image ++ r.chunk).length := by
      rw [List.length_append, List.length_append, h.length, hr.length_chunk]
    exact ih (h.answer hr (hsame.of_append hlength)) hsame

/-- Requests other than a finalize are answered the same, with the same calls up to the expected
signatures. -/
theorem answer_eq (h : s.Paired o image image' s') (hr : r.Similar r')
    (hsame : SameSigned (image ++ r.chunk) (image' ++ r'.chunk)) (hfinalize : r ≠ .finalize) :
    (s'.answer r').1 = (s.answer r).1 ∧ Trace.Mirrors (s.callsFor r) (s'.callsFor r') := by
  obtain hsessions | ⟨hstopped, hstopped', -⟩ := h.twins
  · obtain ⟨hanswer, hafter⟩ := h.answer_of_sessions hsessions hr hsame hfinalize
    refine ⟨hanswer, ?_⟩
    have hlength : s'.board.trace.length = s.board.trace.length :=
      hsessions.platform.board.trace.length_eq.symm
    rw [callsFor, callsFor, hlength]
    exact List.forall₂_drop _ hafter.platform.board.trace
  · have hidle : ∀ {s : Session} {r : Request}, s.Stopped → r ≠ .finalize → s.callsFor r = [] := by
      intro s r hstopped hfinalize
      rw [callsFor, answer_of_stopped hstopped, trace_idle, if_neg hfinalize, List.append_nil,
        List.drop_length]
    have hfinalize' : r' ≠ .finalize := by
      rintro rfl
      cases hr
      exact hfinalize rfl
    rw [hidle hstopped hfinalize, hidle hstopped' hfinalize', answer_of_stopped hstopped,
      answer_of_stopped hstopped']
    refine ⟨?_, .nil⟩
    cases hr <;> rfl

/-- A finalize comes to the same, unless bytes of the signature field differ that the mode of the
outer header looks at. -/
theorem finalize_eq (h : s.Paired o image image' s')
    (hfield : ∀ l, s.chain.outer? = some l → ∀ i < l.mode.signatureSize,
      image'[Header.Field.signature.start + i]? = image[Header.Field.signature.start + i]?) :
    finalize.outcome s' = finalize.outcome s := by
  by_cases hprocessing : s.phase = .processing
  · have hprocessing' : s'.phase = .processing := h.resembles.phase.trans hprocessing
    obtain hsessions | ⟨hstopped, -, -⟩ := h.twins
    · obtain ⟨outer, houter, hheader, hplan⟩ := h.coherent.exists_outer hprocessing
      obtain ⟨outer', houter', hheader', -⟩ := h.coherent'.exists_outer hprocessing'
      have hcontexts := agree_of_outer hsessions.chain fun l l' hl hl' c hc => by
        obtain rfl := Option.some.inj (hl.symm.trans houter)
        obtain rfl := Option.some.inj (hl'.symm.trans houter')
        exact Header.expected_eq_of_field hheader hheader' (hplan c hc) (hfield l houter)
      exact (lawful_unsigned.sameEnd_finalize hsessions hcontexts).outcome_eq
    · exact absurd hprocessing hstopped.phase_ne.2
  · have hprocessing' : s'.phase ≠ .processing := h.resembles.phase ▸ hprocessing
    rw [outcome_finalize_invalid hprocessing, outcome_finalize_invalid hprocessing']

end Paired

end Session

namespace Authenticator

variable {a : Authenticator} {type : BinaryType} {dest : Bytes} {s : Session}

open Session

/-- **Sessions are blind to unsigned bytes** of the outer header, its magic aside, until they are
finalized. If two images differ in such bytes only, and are pushed in the same way, then a session
answers each push the same and looks the same after it, and the calls made for it differ at most in
the signatures that operations are set up to expect. Then a finalize can come to another verdict only
if the images differ in those bytes of the signature field that the mode of the outer header looks
at. -/
theorem blind_until_finalize (hopen : (openSession type dest).outcome a = .ok s)
    {asked asked' : List Session.Request} (hasked : List.Forall₂ Request.Similar asked asked')
    {r r' : Session.Request} (hr : r.Similar r')
    (hsame : SameSigned (pushed (asked ++ [r])) (pushed (asked' ++ [r']))) :
    let t := s.after asked
    let t' := s.after asked'
    (t.answer r).2.Resembles (t'.answer r').2 ∧
    (r ≠ .finalize → (t'.answer r').1 = (t.answer r).1 ∧
      Trace.Mirrors (t.callsFor r) (t'.callsFor r')) ∧
    ((t'.answer r').1 ≠ (t.answer r).1 → ∃ outer, t.chain.outer? = some outer ∧
      ∃ i < outer.mode.signatureSize,
        (pushed asked')[Header.Field.signature.start + i]? ≠
          (pushed asked)[Header.Field.signature.start + i]?) := by
  intro t t'
  obtain ⟨hawaits, -⟩ := awaits_of_openSession hopen
  have hstart : s.Paired s.opening [] [] s := by
    have hchain : unsigned.Chains s.chain s.chain := by
      rw [hawaits.chain]
      exact .empty
    exact ⟨.awaiting hawaits rfl, .awaiting hawaits rfl, rfl,
      .inl (.mk (fun _ _ => trivial) ⟨.refl _, rfl⟩ hchain)⟩
  have hpushed : ∀ (asked : List Session.Request) (r : Session.Request),
      pushed (asked ++ [r]) = pushed asked ++ r.chunk := by
    intro asked r
    simp [pushed]
  rw [hpushed, hpushed] at hsame
  have hpaired : t.Paired s.opening (pushed asked) (pushed asked') t' :=
    hstart.after hasked (hsame.of_append (Request.Similar.length_pushed hasked))
  refine ⟨(hpaired.answer hr hsame).resembles, hpaired.answer_eq hr hsame, fun hdiffers => ?_⟩
  obtain rfl : r = .finalize := not_not.mp fun hfinalize =>
    hdiffers (hpaired.answer_eq hr hsame hfinalize).1
  cases hr
  by_contra hnone
  refine hdiffers (congrArg Answer.finalize (hpaired.finalize_eq fun l hl i hi => ?_))
  exact not_not.mp fun hfield => hnone ⟨l, hl, i, hi, hfield⟩

/-- A token without a signature and one with that which it ought to have look the same even when they
have been finalized, with different verdicts, as they differ in the bytes that RSA looks at. -/
theorem blind_until_finalize_signature :
    let blank := Header.blank .oemRsa 32
    let payload : Bytes := List.replicate 32 0
    let signed := blank.set .signature
      (Envelope.computed (Chip.t194.policy .rollbackToken).keys ⟨blank, .oemRsa⟩ payload)
    let asked : Header → List Session.Request := fun h => [.push h.bytes true, .push payload false]
    ∃ s, (openSession .rollbackToken (List.replicate 32 0)).outcome
        (fresh .t194 (.fresh .blank []) .disabled) = .ok s ∧
      let t := s.after (asked blank)
      let t' := s.after (asked signed)
      (t'.answer .finalize).1 ≠ (t.answer .finalize).1 ∧
      (t.answer .finalize).2.Resembles (t'.answer .finalize).2 ∧
      ∃ outer, t.chain.outer? = some outer ∧ ∃ i < outer.mode.signatureSize,
        (pushed (asked signed))[Header.Field.signature.start + i]? ≠
          (pushed (asked blank))[Header.Field.signature.start + i]? := by
  intro blank payload signed asked
  have hopen : (openSession .rollbackToken (List.replicate 32 0)).outcome
      (fresh .t194 (.fresh .blank []) .disabled) = .ok _ := rfl
  have hlength : signed.bytes.length = blank.bytes.length := by
    rw [Header.length_bytes_eq, Header.length_bytes_eq]
  have hasked : List.Forall₂ Request.Similar (asked blank) (asked signed) :=
    .cons (.push true hlength) (.cons (.push false rfl) .nil)
  have hpushed : ∀ h : Header, pushed (asked h ++ [.finalize]) = h.bytes ++ payload := by
    intro h
    simp [pushed, asked, Session.Request.chunk]
  have hsame : SameSigned (pushed (asked blank ++ [.finalize]))
      (pushed (asked signed ++ [.finalize])) := by
    have hheader : SameSigned blank.bytes signed.bytes :=
      blank.sameSigned_set (f := .signature) (by decide) (by decide) _
    rw [hpushed, hpushed]
    exact hheader.append hlength payload
  obtain ⟨hresembles, -, hfinalize⟩ := blind_until_finalize hopen hasked .finalize hsame
  refine ⟨_, hopen, ?_, hresembles, hfinalize ?_⟩
  all_goals decide +kernel

end Authenticator

end SecureBoot
