import SecureBoot.Proofs.Likeness
import SecureBoot.Proofs.Stopping

/-!
Sessions that are alike, in lockstep. Each step of a session goes in lockstep with the same step of a
session that is alike, for any lawful likeness: no branch of a push looks at what the likeness leaves
open (`Likeness.Lawful.sameEnd_push`), and a finalization looks at it only for the verdicts of the
operations (`Likeness.Lawful.sameEnd_finalize`). If these are alike, too, then so are all answers, and
all that is to be seen of the sessions stays the same (`Likeness.Lawful.transcript`).
-/

namespace SecureBoot

open Step

/-- All that is to be seen of one session is to be seen of the other. -/
structure Session.Resembles (s s' : Session) : Prop extends s.Stands s' where
  phase : s'.phase = s.phase

theorem Session.Resembles.of_stands {s s' t t' : Session} (h : s.Resembles s') (ht : s.Stands t)
    (ht' : s'.Stands t') (hphase : t'.phase = t.phase) : t.Resembles t' :=
  ⟨ht.symm.trans (h.toStands.trans ht'), hphase⟩

namespace Likeness

variable {L : Likeness} {h h' : Header} {α : Type} {V : α → α → Prop}

/-! ### Parts -/

theorem lockstep_onBoard {m m' : Step Board α} (hm : Lockstep L.board V m m') :
    Lockstep L.Platforms V (Platform.onBoard m) (Platform.onBoard m') :=
  hm.focus (fun _ _ hp => hp.board) fun _ _ _ _ hp hb => ⟨hb, hp.cache⟩

namespace Sessions

variable {s s' : Session}

theorem platform (hs : L.Sessions s s') : L.Platforms s.platform s'.platform := by
  cases hs with
  | mk _ hplatform => exact hplatform

theorem chain (hs : L.Sessions s s') : L.Chains s.chain s'.chain := by
  cases hs with
  | mk _ _ hchain => exact hchain

theorem setPlatform (hs : L.Sessions s s') {p p' : Platform} (hp : L.Platforms p p') :
    L.Sessions { s with platform := p } { s' with platform := p' } := by
  cases hs with
  | mk hmode _ hchain => exact .mk hmode hp hchain

theorem setChain (hs : L.Sessions s s') {c c' : Chain} (hc : L.Chains c c') :
    L.Sessions { s with chain := c } { s' with chain := c' } := by
  cases hs with
  | mk hmode hplatform => exact .mk hmode hplatform hc

end Sessions

theorem lockstep_onPlatform {m m' : Step Platform α} (hm : Lockstep L.Platforms V m m') :
    Lockstep L.Sessions V (Session.onPlatform m) (Session.onPlatform m') :=
  hm.focus (fun _ _ hs => hs.platform) fun _ _ _ _ hs hp => hs.setPlatform hp

theorem lockstep_onWindow (m : Step Window α) :
    Lockstep L.Sessions Eq (Session.onWindow m) (Session.onWindow m) := by
  refine (lockstep_self m).focus ?_ ?_
  · rintro s _ ⟨⟩
    rfl
  · rintro s _ w _ ⟨hmode, hplatform, hchain⟩ rfl
    exact .mk hmode hplatform hchain

/-- Chunks from which alike headers are read, if any, with the same payload after them. -/
structure Openings (L : Likeness) (b b' : Bytes) : Prop where
  length : b'.length = b.length
  announced : Header.Announced b' ↔ Header.Announced b
  header : ∀ h h' : Header, b.take Header.size = h.bytes → b'.take Header.size = h'.bytes →
    L.header h h'
  payload : b'.drop Header.size = b.drop Header.size

/-- Benches with the same piece. -/
structure Benches (L : Likeness) (w w' : Bench) : Prop where
  board : L.board w.board w'.board
  piece : w'.piece = w.piece

theorem lockstep_onPiece (start n : Nat) {m m' : Step Bench α} (hm : Lockstep L.Benches V m m') :
    Lockstep L.Sessions V (Session.onPiece start n m) (Session.onPiece start n m') := by
  refine hm.focus ?_ ?_
  · rintro s _ ⟨-, hplatform, -⟩
    exact ⟨hplatform.board, rfl⟩
  · rintro s _ ⟨b, piece⟩ ⟨b', _⟩ ⟨hmode, hplatform, hchain⟩ ⟨hboard, rfl⟩
    exact .mk hmode ⟨hboard, hplatform.cache⟩ hchain

theorem Sessions.remaining_eq {s s' : Session} (hL : L.Lawful) (hs : L.Sessions s s') :
    s'.remaining = s.remaining := by
  obtain ⟨-, -, hchain⟩ := hs
  simp only [Session.remaining]
  generalize s.chain = c at hchain ⊢
  cases hchain with
  | empty => rfl
  | undecided hl | single hl | nested hl => exact congrArg (· - s.window.filled) (hl.size_eq hL)

theorem Sessions.resembles {s s' : Session} (hL : L.Lawful) (hs : L.Sessions s s') :
    s.Resembles s' := by
  have hremaining := hs.remaining_eq hL
  obtain ⟨-, -, hchain⟩ := hs
  exact ⟨⟨rfl, hchain.length_layers_eq, rfl, hremaining⟩, rfl⟩

namespace Lawful

variable (hL : L.Lawful)
include hL

/-! ### Closing -/

theorem closeAll {b b' : Board} {contexts contexts' : List Context} (hb : L.board b b')
    (hcontexts : List.Forall₂ L.Operations contexts contexts') :
    L.board (b.closeAll contexts) (b'.closeAll contexts') := by
  induction hcontexts generalizing b b' with
  | nil => exact hb
  | cons hc _ ih => exact ih (hL.close hb hc)

theorem platform_closeAll {p p' : Platform} {contexts contexts' : List Context}
    (hp : L.Platforms p p') (hcontexts : L.Contexts h h' contexts contexts') :
    L.Platforms (p.closeAll contexts) (p'.closeAll contexts') :=
  ⟨hL.closeAll hp.board (hcontexts.imp fun _ _ hc => ⟨_, _, hc⟩), hp.cache⟩

theorem release {s s' : Session} (hs : L.Sessions s s') : L.Sessions s.release s'.release := by
  cases hs with
  | mk hmode hplatform hchain =>
    exact .mk hmode ⟨hL.closeAll hplatform.board hchain.operations, hplatform.cache⟩ hchain.released

/-! ### Operations -/

theorem openContexts {mode : CryptoMode} (hmode : L.mode mode) (hheader : L.header h h')
    (keys : KeyTable) {algorithms : List Algorithm} (hplan : ∀ a ∈ algorithms, a ∈ mode.plan) :
    Lockstep L.Platforms (L.Contexts h h') (Platform.openContexts mode keys h algorithms)
      (Platform.openContexts mode keys h' algorithms) := by
  induction algorithms with
  | nil => exact lockstep_pure .nil
  | cons a rest ih =>
    rw [List.forall_mem_cons] at hplan
    refine (hL.openContext hmode hheader keys a hplan.1).bind fun c c' hc => ?_
    refine Lockstep.bind ((ih hplan.2).onError ?_) fun cs cs' hcs => lockstep_pure (.cons hc hcs)
    exact fun p p' hp => hL.platform_closeAll hp (.cons hc .nil)

theorem feedVerifier (signed : Bytes) {c c' : Context} (hc : L.context h h' c c') :
    Lockstep L.board (L.context h h') (Board.feedVerifier signed c)
      (Board.feedVerifier signed c') := by
  unfold Board.feedVerifier
  rw [hL.algorithm hc]
  split
  · exact (hL.process hc signed).map fun _ _ hr => hr.1
  · exact lockstep_pure hc

theorem feedSection (signed : Bytes) {contexts contexts' : List Context}
    (hcontexts : L.Contexts h h' contexts contexts') :
    Lockstep L.board (L.Contexts h h') (Board.feedSection signed contexts)
      (Board.feedSection signed contexts') := by
  induction hcontexts with
  | nil => exact lockstep_pure .nil
  | cons hc _ ih =>
    exact (hL.feedVerifier signed hc).bind fun _ _ hc => ih.bind fun _ _ hcs =>
      lockstep_pure (.cons hc hcs)

theorem bench_run {contexts contexts' : List Context}
    (hcontexts : L.Contexts h h' contexts contexts') :
    Lockstep L.Benches (L.Contexts h h') (Bench.run contexts) (Bench.run contexts') := by
  induction hcontexts with
  | nil => exact lockstep_pure .nil
  | cons hc _ ih =>
    refine lockstep_get.bind fun w w' hw => ?_
    rw [hw.piece]
    refine Lockstep.bind ((hL.process hc w.piece).focus (fun _ _ hw => hw.board)
      fun _ _ _ _ hw hb => ⟨hb, hw.piece⟩) ?_
    rintro ⟨c, piece⟩ ⟨c', _⟩ ⟨hc, rfl⟩
    refine (lockstep_modify fun _ _ hw => ⟨hw.board, rfl⟩).bind fun _ _ _ => ?_
    exact ih.bind fun _ _ hcs => lockstep_pure (.cons hc hcs)

theorem finalizeAll {contexts contexts' : List Context}
    (hcontexts : List.Forall₂ L.Agree contexts contexts') :
    Lockstep L.board Eq (Board.finalizeAll contexts) (Board.finalizeAll contexts') := by
  induction hcontexts with
  | nil => exact lockstep_pure rfl
  | @cons c c' rest rest' hc _ ih =>
    intro b b' hb
    have hends := hL.finalize hc.alike hc.verdict b b' hb
    rw [Board.finalizeAll, Board.finalizeAll]
    unfold EStateM.run at hends ⊢
    beta_reduce
    generalize Board.finalize c b = r, Board.finalize c' b' = r' at hends ⊢
    cases hends with
    | ok _ hb => exact ih _ _ hb
    | error _ hb => exact .error _ hb

/-! ### Headers and payload -/

theorem accept (hheader : L.header h h') (start : Nat) :
    Lockstep L.Sessions (fun l l' => L.Layers l l' ∧ l.header = h ∧ l'.header = h')
      (Session.accept h start) (Session.accept h' start) := by
  refine lockstep_get.bind ?_
  rintro s _ ⟨hmode, hplatform, hchain⟩
  rw [Header.signingWord_eq_of_signedSection (hL.signedSection hheader)]
  refine (lockstep_ofExcept _).bind ?_
  rintro _ mode ⟨rfl, hresolve⟩
  have hadmits := (resolve_eq_ok_iff.mp hresolve).2.1
  refine Lockstep.bind (lockstep_onPlatform
    (hL.openContexts (hmode mode hadmits) hheader s.keys fun _ => id)) fun opened opened' hopened => ?_
  rw [hL.signedSection hheader]
  refine Lockstep.bind ((lockstep_onPlatform (lockstep_onBoard
    (hL.feedSection h.signedSection hopened))).onError ?_) fun contexts contexts' hcontexts => ?_
  · exact fun s s' hs => hs.setPlatform (hL.platform_closeAll hs.platform hopened)
  · refine (lockstep_modify ?_).bind fun _ _ _ =>
      lockstep_pure ⟨⟨hheader, rfl, rfl, rfl, hcontexts⟩, rfl, rfl⟩
    rintro s _ ⟨hmode, hplatform, hchain⟩
    exact .mk hmode hplatform hchain

theorem runLayer {l l' : Layer} (hl : L.Layers l l') (available : Nat) :
    Lockstep L.Sessions (fun k k' => L.Layers k k' ∧ k.header = l.header ∧ k'.header = l'.header)
      (Session.runLayer l available) (Session.runLayer l' available) := by
  simp only [Session.runLayer, hl.runnable_eq hL, hl.safeEnd_eq]
  split
  · exact lockstep_pure ⟨hl, rfl, rfl⟩
  · exact Lockstep.bind (lockstep_onPiece _ _ (hL.bench_run hl.contexts)) fun _ _ hcontexts =>
      lockstep_pure ⟨hl.advance _ hcontexts, rfl, rfl⟩

theorem runOuter : Lockstep L.Sessions Eq Session.runOuter Session.runOuter := by
  refine lockstep_get.bind ?_
  rintro s _ ⟨-, -, hchain⟩
  have houter : ∀ {outer outer' : Layer}, L.Layers outer outer' → Lockstep L.Sessions Eq
      (do let outer ← Session.runLayer outer s.window.filled
          modify fun s => { s with chain := s.chain.withOuter outer })
      (do let outer ← Session.runLayer outer' s.window.filled
          modify fun s => { s with chain := s.chain.withOuter outer }) := by
    intro outer outer' hl
    refine (hL.runLayer hl _).bind fun _ _ hl => lockstep_modify fun s s' hs => ?_
    exact hs.setChain (hs.chain.withOuter hl.1)
  generalize s.chain = c at hchain ⊢
  cases hchain with
  | empty => exact lockstep_pure rfl
  | undecided hl | single hl | nested hl => exact houter hl

theorem settle : Lockstep L.Sessions Eq Session.settle Session.settle := by
  refine lockstep_get.bind ?_
  rintro s _ ⟨hmode, hplatform, hchain⟩
  generalize s.chain = c at hchain ⊢
  cases hchain with
  | empty | single | nested => exact lockstep_pure rfl
  | @undecided outer outer' hl =>
    simp only [hl.done, hl.size_eq hL, hl.start]
    split
    · exact lockstep_pure rfl
    · refine (lockstep_ofExcept _).bind ?_
      rintro _ found ⟨rfl, -⟩
      cases found with
      | none => exact lockstep_set (.mk hmode hplatform (.single hl))
      | some h =>
        refine (hL.accept (hL.header_refl h) _).bind ?_
        rintro inner inner' ⟨hinner, hheader, hheader'⟩
        exact lockstep_modify fun s s' hs =>
          hs.setChain (.nested hl hinner (hheader'.trans hheader.symm))

theorem runInner : Lockstep L.Sessions Eq Session.runInner Session.runInner := by
  refine lockstep_get.bind ?_
  rintro s _ ⟨-, -, hchain⟩
  generalize s.chain = c at hchain ⊢
  cases hchain with
  | empty | undecided | single => exact lockstep_pure rfl
  | nested houter hinner hsame =>
    simp only [houter.safeEnd_eq]
    refine (hL.runLayer hinner _).bind ?_
    rintro inner inner' ⟨hinner, hheader, hheader'⟩
    exact lockstep_modify fun s s' hs =>
      hs.setChain (.nested houter hinner (by rw [hheader, hheader', hsame]))

theorem commit : Lockstep L.Sessions Eq Session.commit Session.commit := by
  refine lockstep_get.bind fun s s' hs => ?_
  rw [hs.chain.safe?_eq hL]
  split
  · exact lockstep_pure rfl
  · exact lockstep_onWindow _

theorem pump : Lockstep L.Sessions Eq Session.pump Session.pump :=
  hL.runOuter.bind fun _ _ _ => hL.settle.bind fun _ _ _ => hL.runInner.bind fun _ _ _ => hL.commit

theorem consume (payload : Bytes) :
    Lockstep L.Sessions Eq (Session.consume payload) (Session.consume payload) := by
  refine lockstep_get.bind fun s s' hs => ?_
  rw [hs.remaining_eq hL]
  refine (lockstep_onWindow _).bind ?_
  rintro extent _ rfl
  refine (lockstep_modify ?_).bind fun _ _ _ => hL.pump
  rintro s _ ⟨hmode, hplatform, hchain⟩
  exact .mk hmode hplatform hchain

theorem parse {b b' : Bytes} (hb : L.Openings b b') (limit : SizeLimit) :
    Lockstep L.Sessions (Option.Rel L.header) (Step.ofExcept (Header.parse b limit))
      (Step.ofExcept (Header.parse b' limit)) := by
  unfold Header.parse
  simp only [hb.announced]
  by_cases hlength : b.length < Header.size
  · have hnone := Block.ofStart?_eq_none_iff.mpr hlength
    have hnone' := Block.ofStart?_eq_none_iff.mpr (hb.length.symm ▸ hlength)
    rw [hnone, hnone']
    split
    · exact lockstep_throw _
    · exact lockstep_pure .none
  · obtain ⟨k, hk⟩ := Option.ne_none_iff_exists'.mp fun hnone =>
      hlength (Block.ofStart?_eq_none_iff.mp hnone)
    obtain ⟨k', hk'⟩ := Option.ne_none_iff_exists'.mp fun hnone =>
      hlength (hb.length ▸ Block.ofStart?_eq_none_iff.mp hnone)
    have hheader : L.header ⟨k⟩ ⟨k'⟩ :=
      hb.header _ _ (Block.ofStart?_eq_some_iff.mp hk) (Block.ofStart?_eq_some_iff.mp hk')
    simp only [hk, hk', Header.length_eq_of_signedSection (hL.signedSection hheader)]
    split
    · split
      · exact lockstep_throw _
      · exact lockstep_pure (.some hheader)
    · exact lockstep_pure .none

theorem pushFirst {b b' : Bytes} (hb : L.Openings b b') :
    Lockstep L.Sessions Eq (Session.pushFirst b) (Session.pushFirst b') := by
  refine lockstep_get.bind ?_
  rintro s _ ⟨-, -, -⟩
  refine (hL.parse hb _).bind ?_
  rintro _ _ (@⟨h, h', hheader⟩ | _)
  · refine (hL.accept hheader 0).bind ?_
    rintro outer outer' ⟨houter, -, -⟩
    simp only [hb.payload, Header.length_eq_of_signedSection (hL.signedSection hheader), houter.mode]
    refine (lockstep_modify ?_).bind fun _ _ _ => hL.consume _
    rintro s _ ⟨hmode, hplatform, -⟩
    exact .mk hmode hplatform (.undecided houter)
  · exact lockstep_throw _

/-- Sessions that are pushed alike chunks, the same ones once they have their header, stay alike. -/
theorem sameEnd_push {b b' : Bytes} {s s' : Session} (hs : L.Sessions s s') (first : Bool)
    (hawaiting : s.phase = .awaitingHeader → L.Openings b b')
    (hprocessing : s.phase = .processing → b' = b) :
    SameEnd Eq L.Sessions ((Session.push b first).run s) ((Session.push b' first).run s') := by
  refine SameEnd.onError ?_ ?_
  · obtain ⟨hmode, hplatform, hchain⟩ := hs
    refine .of_get (.mk hmode hplatform hchain) ?_
    dsimp only
    split
    · exact hL.pushFirst (hawaiting ‹_›)
    · rw [hprocessing ‹_›]
      exact hL.consume b
    · exact lockstep_throw _
  · rintro s _ ⟨hmode, hplatform, hchain⟩
    exact .mk hmode hplatform hchain

/-! ### Verdicts -/

theorem verified_eq {s s' : Session} (hs : L.Sessions s s') {l l' : Layer} (hl : L.Layers l l') :
    s'.verified l' = s.verified l := by
  obtain ⟨-, -, hchain⟩ := hs
  have hany : ∀ c : Chain, c.layers.any Layer.isNvidia = (c.layers.map Layer.isNvidia).any id := by
    intro c
    rw [List.any_map]
    rfl
  simp only [Session.verified, Session.headerCount, hl.extent_eq hL, hchain.length_layers_eq,
    Header.rollbackLevel_eq_of_signedSection (hL.signedSection hl.header), hany,
    hchain.isNvidia_eq]

/-- Sessions whose operations come to the same verdicts are judged alike. -/
theorem sameEnd_judge {s s' : Session} (hs : L.Sessions s s')
    (hagree : List.Forall₂ L.Agree s.chain.contexts s'.chain.contexts) :
    SameEnd Eq L.Sessions (Session.judge.run s) (Session.judge.run s') := by
  have hgiven : ∀ {outer outer' innermost innermost' : Layer}, L.Layers outer outer' →
      L.Layers innermost innermost' → Lockstep L.Sessions Eq
        (do Step.require (s.remaining = 0 ∧ s.window.safe = outer.size) .invalid
            Step.require (s.nvidiaHeader.isMet (s.chain.layers.map Layer.isNvidia)) .verifyFailed
            Session.onBoard (Board.finalizeAll s.chain.contexts)
            return s.verified innermost)
        (do Step.require (s'.remaining = 0 ∧ s'.window.safe = outer'.size) .invalid
            Step.require (s'.nvidiaHeader.isMet (s'.chain.layers.map Layer.isNvidia)) .verifyFailed
            Session.onBoard (Board.finalizeAll s'.chain.contexts)
            return s'.verified innermost') := by
    intro outer outer' innermost innermost' houter hinnermost
    rw [hs.remaining_eq hL, houter.size_eq hL, hs.chain.isNvidia_eq, hL.verified_eq hs hinnermost]
    obtain ⟨hmode, hplatform, hchain⟩ := hs
    refine (lockstep_require _ _).bind fun _ _ _ => (lockstep_require _ _).bind fun _ _ _ => ?_
    exact Lockstep.bind (lockstep_onPlatform (lockstep_onBoard (hL.finalizeAll hagree)))
      fun _ _ _ => lockstep_pure rfl
  obtain ⟨hmode, hplatform, hchain⟩ := hs
  refine .of_get (.mk hmode hplatform hchain) ((lockstep_require _ _).bind fun _ _ _ => ?_)
  cases s
  cases hchain with
  | empty => exact lockstep_throw _
  | undecided houter | single houter => exact hgiven houter houter
  | nested houter hinner => exact hgiven houter hinner

theorem sameEnd_finalize {s s' : Session} (hs : L.Sessions s s')
    (hagree : List.Forall₂ L.Agree s.chain.contexts s'.chain.contexts) :
    SameEnd Eq L.Sessions (Session.finalize.run s) (Session.finalize.run s') := by
  refine (hL.sameEnd_judge hs hagree).ensuring fun t t' ht => ?_
  obtain ⟨hmode, hplatform, hchain⟩ := ht
  cases hL.release (.mk hmode hplatform hchain) with
  | mk hmode hplatform hchain => exact .mk hmode hplatform hchain

/-! ### Histories -/

theorem openings_self (b : Bytes) : L.Openings b b where
  length := rfl
  announced := Iff.rfl
  header := by
    rintro ⟨k⟩ ⟨k'⟩ hk hk'
    obtain rfl : k = k' := Block.ext (hk.symm.trans hk')
    exact hL.header_refl _
  payload := rfl

variable (hverdict : ∀ c c', L.Operations c c' → c'.verdict = c.verdict)
include hverdict

theorem answer {s s' : Session} (hs : L.Sessions s s') (r : Session.Request) :
    (s'.answer r).1 = (s.answer r).1 ∧ L.Sessions (s.answer r).2 (s'.answer r).2 := by
  cases r with
  | push chunk first =>
    have hends := hL.sameEnd_push hs first (fun _ => hL.openings_self chunk) fun _ => rfl
    exact ⟨congrArg Session.Answer.push hends.outcome_eq, hends.final⟩
  | requireNvidia policy =>
    obtain ⟨hmode, hplatform, hchain⟩ := hs
    exact ⟨rfl, .mk hmode hplatform hchain⟩
  | finalize =>
    have hends := hL.sameEnd_finalize hs
      (hs.chain.operations.imp fun c c' hc => ⟨hc, hverdict c c' hc⟩)
    exact ⟨congrArg Session.Answer.finalize hends.outcome_eq, hends.final⟩

theorem after {s s' : Session} (hs : L.Sessions s s') (requests : List Session.Request) :
    L.Sessions (s.after requests) (s'.after requests) := by
  induction requests generalizing s s' with
  | nil => exact hs
  | cons r rest ih => exact ih (hL.answer hverdict hs r).2

/-- Sessions that are alike, with operations that come to the same verdicts, answer alike whatever
they are asked. -/
theorem transcript {s s' : Session} (hs : L.Sessions s s') (requests : List Session.Request) :
    List.Forall₂ (fun x x' => x'.1 = x.1 ∧ L.Sessions x.2 x'.2) (s.transcript requests)
      (s'.transcript requests) := by
  induction requests generalizing s s' with
  | nil => exact .nil
  | cons r rest ih =>
    have hanswer := hL.answer hverdict hs r
    exact .cons hanswer (ih hanswer.2)

end Lawful

end Likeness

end SecureBoot
