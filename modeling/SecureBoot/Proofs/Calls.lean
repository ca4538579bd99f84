import Mathlib.Order.Defs.Unbundled
import SecureBoot.Proofs.Course

/-!
What steps ask of the hardware. `Step.Moves` says that a step, however it ends, moves what is seen of
its state along a relation, with one rule for each way of putting steps together. The relation here is
`Board.Extends`: the record has grown by calls of a kind, and the fuses are what they were.

A session asks the engine only, whatever it is asked itself (`Session.extends_answer`,
`Session.extends_after`). Except where it accepts a header, it does no more than use the operations that
it has (`Platform.Uses`). Opening one looks at fuses besides
(`Authenticator.ensures_openSession_extends`), so a session as a whole, from its opening to its end,
writes no fuse and leaves the guard against rollback alone (`Authenticator.extends_withSession`,
`Authenticator.extends_visit`).
-/

namespace SecureBoot

/-! ### Steps that move along a relation -/

namespace Step

variable {σ τ ρ υ α β : Type} {R : τ → τ → Prop} {view : σ → τ}

/-- However a run of the step ends, what is seen of the state has moved along `R`. -/
def Moves (R : τ → τ → Prop) (view : σ → τ) (m : Step σ α) : Prop :=
  ∀ s, Ensures m s (fun _ t => R (view s) (view t)) (fun _ t => R (view s) (view t))

theorem Moves.final {m : Step σ α} (h : Moves R view m) (s : σ) : R (view s) (view (m.final s)) :=
  Ensures.final (p := fun t => R (view s) (view t)) (h s)

theorem moves_modify {f : σ → σ} (h : ∀ s, R (view s) (view (f s))) :
    Moves R view (modify f : Step σ PUnit) := h

theorem Moves.map {m : Step σ β} (hm : Moves R view m) (f : β → α) : Moves R view (f <$> m) := by
  intro s
  rw [ensures_map]
  exact hm s

/-- A step on a part of the state moves the whole as far as the part does. -/
theorem Moves.focus {Q : υ → υ → Prop} {view' : ρ → υ} {part : σ → ρ} {put : ρ → σ → σ}
    {m : Step ρ α} (hm : Moves Q view' m)
    (h : ∀ s t, Q (view' (part s)) (view' t) → R (view s) (view (put t s))) :
    Moves R view (Step.focus part put m) := by
  intro s
  rw [ensures_focus]
  exact (hm (part s)).mono (fun _ t => h s t) fun _ t => h s t

/-- What moves along one relation moves along any that follows from it. -/
theorem Moves.imp {Q : υ → υ → Prop} {view' : σ → υ} {m : Step σ α} (hm : Moves R view m)
    (h : ∀ s t, R (view s) (view t) → Q (view' s) (view' t)) : Moves Q view' m :=
  fun s => (hm s).mono (fun _ t => h s t) fun _ t => h s t

section Refl

variable [Std.Refl R]

theorem moves_pure (a : α) : Moves R view (pure a : Step σ α) := fun _ => Std.Refl.refl _

theorem moves_throw (e : Error) : Moves R view (throw e : Step σ α) := fun _ => Std.Refl.refl _

theorem moves_get : Moves R view (get : Step σ σ) := fun _ => Std.Refl.refl _

theorem moves_ofExcept (r : Except Error α) : Moves R view (ofExcept r : Step σ α) := by
  cases r with
  | ok a => exact moves_pure a
  | error e => exact moves_throw e

theorem moves_require (p : Prop) [Decidable p] (e : Error) : Moves R view (require p e) := by
  unfold require
  split
  · exact moves_pure ()
  · exact moves_throw e

end Refl

section Trans

variable [IsTrans τ R]

theorem Moves.bind {m : Step σ β} {f : β → Step σ α} (hm : Moves R view m)
    (hf : ∀ b, Moves R view (f b)) : Moves R view (m >>= f) := by
  intro s
  rw [ensures_bind]
  refine (hm s).mono ?_ fun _ _ h => h
  intro b t hst
  exact (hf b t).mono (fun _ _ => IsTrans.trans _ _ _ hst) fun _ _ => IsTrans.trans _ _ _ hst

theorem Moves.onError {m : Step σ α} {repair : σ → σ} (hm : Moves R view m)
    (h : ∀ s, R (view s) (view (repair s))) : Moves R view (Step.onError repair m) := by
  intro s
  rw [ensures_onError]
  exact (hm s).mono (fun _ _ hst => hst) fun _ t hst => IsTrans.trans _ _ _ hst (h t)

theorem Moves.ensuring {m : Step σ α} {close : σ → σ} (hm : Moves R view m)
    (h : ∀ s, R (view s) (view (close s))) : Moves R view (Step.ensuring close m) := by
  intro s
  rw [ensures_ensuring]
  exact (hm s).mono (fun _ t hst => IsTrans.trans _ _ _ hst (h t)) fun _ t hst =>
    IsTrans.trans _ _ _ hst (h t)

end Trans

end Step

/-! ### Kinds of calls -/

namespace Event

/-- The call is one to the security engine. -/
def isEngine : Event → Bool
  | .query .. | .read .. | .write .. => false
  | _ => true

/-- The call is to an operation that has been set up. -/
def isUse (e : Event) : Bool := e.subject?.isSome

/-- The call sets an operation up, derives sub-keys for one or closes one. -/
def isSetUp : Event → Bool
  | .init .. | .derive .. | .close .. => true
  | _ => false

/-- The call looks at a fuse field without writing it. -/
def isLook : Event → Bool
  | .query .. | .read .. => true
  | _ => false

def isWrite : Event → Bool
  | .write .. => true
  | _ => false

theorem isEngine_of_isUse {e : Event} (h : e.isUse) : e.isEngine := by
  cases e <;> trivial

theorem isEngine_of_isSetUp {e : Event} (h : e.isSetUp) : e.isEngine := by
  cases e <;> trivial

theorem not_isWrite_of_isEngine {e : Event} (h : e.isEngine) : e.isWrite = false := by
  cases e <;> trivial

theorem not_isWrite_of_isLook {e : Event} (h : e.isLook) : e.isWrite = false := by
  cases e <;> trivial

theorem not_isEngine_of_isLook {e : Event} (h : e.isLook) : e.isEngine = false := by
  cases e <;> trivial

end Event

namespace Board

/-- The calls between two states of a board are all of a kind, and the fuses are what they were. -/
structure Extends (p : Event → Prop) (b b' : Board) : Prop where
  fuses : b'.fuses = b.fuses
  faults : b'.faults = b.faults
  calls : ∃ t : Trace, b'.trace = b.trace ++ t ∧ ∀ e ∈ t, p e

variable {p q : Event → Prop} {b b' b'' : Board}

theorem Extends.refl (b : Board) : b.Extends p b :=
  ⟨rfl, rfl, [], (List.append_nil _).symm, fun _ he => absurd he List.not_mem_nil⟩

theorem Extends.trans (h : b.Extends p b') (h' : b'.Extends p b'') : b.Extends p b'' := by
  obtain ⟨t, ht, hp⟩ := h.calls
  obtain ⟨t', ht', hp'⟩ := h'.calls
  refine ⟨h'.fuses.trans h.fuses, h'.faults.trans h.faults, t ++ t', ?_, ?_⟩
  · rw [ht', ht, List.append_assoc]
  · exact List.forall_mem_append.mpr ⟨hp, hp'⟩

instance : Std.Refl (Extends p) := ⟨Extends.refl⟩

instance : IsTrans Board (Extends p) := ⟨fun _ _ _ => Extends.trans⟩

theorem Extends.mono (h : b.Extends p b') (hpq : ∀ e, p e → q e) : b.Extends q b' := by
  obtain ⟨t, ht, hp⟩ := h.calls
  exact ⟨h.fuses, h.faults, t, ht, fun e he => hpq e (hp e he)⟩

theorem extends_record {e : Event} (he : p e) (b : Board) : b.Extends p (b.record e) :=
  ⟨rfl, rfl, [e], rfl, List.forall_mem_singleton.mpr he⟩

theorem moves_perform {α : Type} {call : Call} {answer : Board → Except Error α}
    {event : Except Error α → Event} (hp : ∀ r, p (event r)) :
    Step.Moves (Extends p) id (perform call answer event) := by
  intro b
  apply (ensures_perform call answer event b).mono
  · rintro a b' ⟨-, rfl⟩
    exact extends_record (hp _) b
  · rintro e b' ⟨rfl, -⟩
    exact extends_record (hp _) b

end Board

namespace Step

variable {σ α : Type}

/-- The step asks nothing but the engine. -/
abbrev AsksEngine (view : σ → Board) (m : Step σ α) : Prop :=
  Moves (Board.Extends fun e => e.isEngine) view m

/-- The step asks nothing but operations that have been set up. -/
abbrev AsksOperations (view : σ → Board) (m : Step σ α) : Prop :=
  Moves (Board.Extends fun e => e.isUse) view m

/-- The step asks nothing but to set operations up and to close them. -/
abbrev AsksSetUp (view : σ → Board) (m : Step σ α) : Prop :=
  Moves (Board.Extends fun e => e.isSetUp) view m

theorem AsksSetUp.asksEngine {view : σ → Board} {m : Step σ α} (hm : AsksSetUp view m) :
    AsksEngine view m := hm.imp fun _ _ h => h.mono fun _ => Event.isEngine_of_isSetUp

/-- The step does nothing but look at fuses. -/
abbrev AsksFuses (view : σ → Board) (m : Step σ α) : Prop :=
  Moves (Board.Extends fun e => e.isLook) view m

end Step

open Step

/-! ### Reading fuses -/

namespace Board

theorem asks_query (field : FuseField) : AsksFuses id (query field) := by
  unfold query
  exact moves_perform fun _ => rfl

theorem asks_read (field : FuseField) (size : Nat) : AsksFuses id (read field size) := by
  unfold read
  exact moves_perform fun _ => rfl

theorem asks_readWord (field : FuseField) : AsksFuses id (readWord field) :=
  (asks_query field).bind fun size => (moves_require _ _).bind fun _ =>
    (asks_read field size).bind fun _ => moves_pure _

theorem asks_readFusedMode : AsksFuses id readFusedMode :=
  moves_get.bind fun _ => (asks_readWord _).bind fun _ => moves_ofExcept _

end Board

/-! ### The operations of a header -/

namespace Board

theorem asks_start (algorithm : Algorithm) (setup : Setup) :
    AsksSetUp id (Board.start algorithm setup) := by
  unfold Board.start
  exact Moves.bind (moves_perform fun _ => rfl) fun _ => moves_pure _

theorem asks_process (c : Context) (data : Bytes) : AsksOperations id (Board.process c data) := by
  unfold Board.process
  exact moves_perform fun _ => rfl

theorem asks_finalize (c : Context) : AsksOperations id (Board.finalize c) := by
  unfold Board.finalize
  exact moves_perform fun _ => rfl

theorem asks_deriveSubkeys (slot : KeySlot) : AsksSetUp id (Board.deriveSubkeys slot) := by
  unfold Board.deriveSubkeys
  exact moves_perform fun _ => rfl

theorem extends_closeAll {p : Event → Prop} (hp : ∀ id, p (.close id)) (contexts : List Context)
    (b : Board) : b.Extends p (b.closeAll contexts) := by
  induction contexts generalizing b with
  | nil => exact .refl b
  | cons c rest ih => exact (extends_record (hp c.id) b).trans (ih (b.close c))

theorem asks_feedVerifier (signed : Bytes) (c : Context) :
    AsksOperations id (Board.feedVerifier signed c) := by
  unfold feedVerifier
  split
  · exact (asks_process c signed).map _
  · exact moves_pure c

theorem asks_feedSection (signed : Bytes) (contexts : List Context) :
    AsksOperations id (Board.feedSection signed contexts) := by
  induction contexts with
  | nil => exact moves_pure []
  | cons c rest ih => exact (asks_feedVerifier signed c).bind fun _ => ih.bind fun _ => moves_pure _

theorem asks_finalizeAll (contexts : List Context) : AsksOperations id (Board.finalizeAll contexts) := by
  induction contexts with
  | nil => exact moves_pure ()
  | cons c rest ih =>
    intro b
    rw [ensures_finalizeAll_cons]
    refine (asks_finalize c b).mono ?_ fun _ _ h => h
    intro _ b' h
    exact (ih b').mono (fun _ _ => h.trans) fun _ _ => h.trans

end Board

theorem Bench.asks_run (contexts : List Context) : AsksOperations Bench.board (Bench.run contexts) := by
  induction contexts with
  | nil => exact moves_pure []
  | cons c rest ih =>
    refine moves_get.bind fun w => Moves.bind ?_ fun _ =>
      (moves_modify fun w => .refl w.board).bind fun _ => ih.bind fun _ => moves_pure _
    exact (Board.asks_process c w.piece).focus fun _ _ h => h

namespace Platform

theorem asks_onBoard {α : Type} {m : Step Board α} (h : AsksSetUp id m) :
    AsksSetUp Platform.board (onBoard m) := h.focus fun _ _ hboard => hboard

theorem asks_subkeys (slot : KeySlot) : AsksSetUp Platform.board (subkeys slot) := by
  have hfind : AsksSetUp Platform.board (findSubkeys slot) := by
    apply moves_get.bind
    intro p
    cases p.cache.get? slot with
    | some keys => exact moves_pure keys
    | none => exact asks_onBoard (Board.asks_deriveSubkeys slot)
  exact hfind.bind fun _ => (moves_modify fun _ => .refl _).bind fun _ => moves_pure _

theorem asks_subkeysFor (algorithm : Algorithm) (key : Key) :
    AsksSetUp Platform.board (subkeysFor algorithm key) := by
  unfold subkeysFor
  split
  · exact (asks_subkeys _).map _
  · exact moves_pure none

theorem asks_openContexts (mode : CryptoMode) (keys : KeyTable) (h : Header)
    (algorithms : List Algorithm) :
    AsksSetUp Platform.board (openContexts mode keys h algorithms) := by
  induction algorithms with
  | nil => exact moves_pure []
  | cons algorithm rest ih =>
    have hopen : AsksSetUp Platform.board (openContext mode keys h algorithm) :=
      (moves_ofExcept _).bind fun _ => (asks_subkeysFor _ _).bind fun _ =>
        asks_onBoard (Board.asks_start _ _)
    exact hopen.bind fun c =>
      (ih.onError fun p => Board.extends_closeAll (fun _ => rfl) [c] p.board).bind fun _ =>
        moves_pure _

end Platform

namespace Platform

/-- Operations that have been set up have been used, and that is all. -/
structure Uses (p p' : Platform) : Prop where
  cache : p'.cache = p.cache
  board : p.board.Extends (fun e => e.isUse) p'.board

theorem Uses.refl (p : Platform) : p.Uses p := ⟨rfl, .refl p.board⟩

theorem Uses.trans {p p' p'' : Platform} (h : p.Uses p') (h' : p'.Uses p'') : p.Uses p'' :=
  ⟨h'.cache.trans h.cache, h.board.trans h'.board⟩

instance : Std.Refl Uses := ⟨Uses.refl⟩

instance : IsTrans Platform Uses := ⟨fun _ _ _ => Uses.trans⟩

theorem uses_closeAll (contexts : List Context) (p : Platform) : p.Uses (p.closeAll contexts) :=
  ⟨rfl, Board.extends_closeAll (fun _ => rfl) contexts p.board⟩

end Platform

/-! ### Sessions -/

namespace Session

abbrev board (s : Session) : Board := s.platform.board

/-- The step does nothing but use the operations that the session has. -/
abbrev UsesOperations {α : Type} (m : Step Session α) : Prop := Moves Platform.Uses platform m

theorem UsesOperations.asksEngine {α : Type} {m : Step Session α} (hm : UsesOperations m) :
    AsksEngine board m := hm.imp fun _ _ h => h.board.mono fun _ => Event.isEngine_of_isUse

theorem uses_onBoard {α : Type} {m : Step Board α} (h : AsksOperations id m) :
    UsesOperations (onBoard m) := by
  have hplatform : Moves Platform.Uses id (Platform.onBoard m) :=
    h.focus fun _ _ hboard => ⟨rfl, hboard⟩
  exact hplatform.focus fun _ _ huses => huses

theorem uses_onPiece {α : Type} {m : Step Bench α} (h : AsksOperations Bench.board m)
    (start n : Nat) : UsesOperations (onPiece start n m) :=
  h.focus fun _ _ hboard => ⟨rfl, hboard⟩

/-- A step on the cursors leaves the hardware alone. -/
theorem uses_onWindow {α : Type} (m : Step Window α) : UsesOperations (onWindow m) := by
  have hany : Moves (fun _ _ : Window => True) id m := by
    intro w
    unfold Ensures
    split <;> trivial
  exact hany.focus fun s _ _ => .refl s.platform

theorem uses_runLayer (l : Layer) (available : Nat) : UsesOperations (runLayer l available) := by
  simp only [runLayer]
  split
  · exact moves_pure l
  · exact (uses_onPiece (Bench.asks_run _) _ _).bind fun _ => moves_pure _

theorem uses_runOuter : UsesOperations runOuter := by
  apply moves_get.bind
  intro s
  cases s.chain.outer? with
  | none => exact moves_pure _
  | some outer =>
    exact (uses_runLayer outer _).bind fun _ => moves_modify fun s => .refl s.platform

theorem uses_runInner : UsesOperations runInner := by
  apply moves_get.bind
  intro s
  cases s.chain with
  | nested outer inner =>
    exact (uses_runLayer inner _).bind fun _ => moves_modify fun s => .refl s.platform
  | empty | undecided outer | single outer => exact moves_pure _

theorem uses_commit : UsesOperations commit := by
  apply moves_get.bind
  intro s
  cases s.chain.safe? with
  | none => exact moves_pure _
  | some safe => exact uses_onWindow _

theorem uses_release (s : Session) : s.platform.Uses s.release.platform :=
  Platform.uses_closeAll s.chain.contexts s.platform

theorem uses_finalize : UsesOperations finalize := by
  refine Moves.ensuring ?_ uses_release
  apply moves_get.bind
  intro s
  apply (moves_require _ _).bind
  intro _
  split
  · exact (moves_require _ _).bind fun _ => (moves_require _ _).bind fun _ =>
      (uses_onBoard (Board.asks_finalizeAll _)).bind fun _ => moves_pure _
  · exact moves_throw _

/-- Accepting a header moves the hardware as far as setting up its operations does, and then uses
them. -/
theorem ensures_accept_of_openContexts {τ : Type} {R : τ → τ → Prop} {view : Platform → τ}
    [Std.Refl R] [IsTrans τ R] (huses : ∀ {p p'}, p.Uses p' → R (view p) (view p')) {s : Session}
    {h : Header} (start : Nat)
    (hopen : ∀ mode, resolve h.signingWord s.source s.permitted = .ok mode →
      Moves R view (Platform.openContexts mode s.keys h mode.plan)) :
    Ensures (accept h start) s (fun _ s' => R (view s.platform) (view s'.platform))
      (fun _ s' => R (view s.platform) (view s'.platform)) := by
  rw [accept, ensures_bind, ensures_get, ensures_bind]
  cases hresolve : resolve h.signingWord s.source s.permitted with
  | error e => exact Std.Refl.refl (view s.platform)
  | ok mode =>
    rw [ensures_ofExcept_ok]
    have hplatform : Moves R (fun s => view (platform s))
        (onPlatform (Platform.openContexts mode s.keys h mode.plan)) :=
      (hopen mode hresolve).focus fun _ _ hmoves => hmoves
    have hfeed : ∀ opened, UsesOperations (Step.onError (closeAll opened)
        (onBoard (Board.feedSection h.signedSection opened))) := fun opened =>
      (uses_onBoard (Board.asks_feedSection _ _)).onError fun s =>
        Platform.uses_closeAll opened s.platform
    exact (hplatform.bind fun opened => ((hfeed opened).imp fun _ _ => huses).bind fun _ =>
      (moves_modify fun s => Std.Refl.refl (view s.platform)).bind fun _ => moves_pure _) s

theorem asks_accept (h : Header) (start : Nat) : AsksEngine board (accept h start) := by
  intro s
  have hopen : ∀ mode, resolve h.signingWord s.source s.permitted = .ok mode →
      AsksEngine Platform.board (Platform.openContexts mode s.keys h mode.plan) :=
    fun mode _ => (Platform.asks_openContexts mode s.keys h mode.plan).asksEngine
  exact ensures_accept_of_openContexts
    (fun huses => huses.board.mono fun _ => Event.isEngine_of_isUse) start hopen

/-- What settling what is inside can come to: nothing, an error, the finding that there is no header, or
accepting one. -/
theorem ensures_settle_of_accept {s : Session} {good : Unit → Session → Prop}
    {bad : Error → Session → Prop} (hkept : good () s) (herror : ∀ e, bad e s)
    (hsingle : ∀ outer, s.chain = .undecided outer → good () { s with chain := .single outer })
    (haccept : ∀ outer h, s.chain = .undecided outer →
      ¬ (outer.done < Header.size ∧ outer.done < outer.size) →
      Header.parse (slice s.dest outer.start (min outer.done Header.size))
        (.enclosing (outer.size - Header.size)) = .ok (some h) →
      Ensures (accept h (outer.start + Header.size)) s
        (fun inner s' => good () { s' with chain := .nested outer inner }) bad) :
    Ensures settle s good bad := by
  simp only [settle, ensures_bind, ensures_get]
  cases hchain : s.chain with
  | empty | single outer | nested outer inner => exact hkept
  | undecided outer =>
    by_cases hearly : outer.done < Header.size ∧ outer.done < outer.size
    · simp only [if_pos hearly]
      exact hkept
    · simp only [if_neg hearly, ensures_bind]
      cases hparse : Header.parse (slice s.dest outer.start (min outer.done Header.size))
          (.enclosing (outer.size - Header.size)) with
      | error e => exact herror e
      | ok found =>
        rw [ensures_ofExcept_ok]
        cases found with
        | none => exact hsingle outer hchain
        | some h =>
          simp only [ensures_bind, ensures_modify]
          exact haccept outer h hchain hearly hparse

theorem asks_settle : AsksEngine board settle := fun s =>
  ensures_settle_of_accept (.refl s.board) (fun _ => .refl s.board) (fun _ _ => .refl s.board)
    fun outer h _ _ _ => asks_accept h (outer.start + Header.size) s

theorem asks_consume (payload : Bytes) : AsksEngine board (consume payload) :=
  moves_get.bind fun _ => (uses_onWindow _).asksEngine.bind fun _ =>
    (moves_modify fun s => .refl s.board).bind fun _ => uses_runOuter.asksEngine.bind fun _ =>
      asks_settle.bind fun _ => uses_runInner.asksEngine.bind fun _ => uses_commit.asksEngine

theorem asks_pushFirst (chunk : Bytes) : AsksEngine board (pushFirst chunk) := by
  apply moves_get.bind
  intro s
  apply (moves_ofExcept _).bind
  intro found
  cases found with
  | none => exact moves_throw _
  | some h =>
    exact (asks_accept h 0).bind fun _ => (moves_modify fun s => .refl s.board).bind fun _ =>
      asks_consume _

theorem asks_push (chunk : Bytes) (first : Bool) : AsksEngine board (push chunk first) := by
  refine (moves_get.bind fun s => ?_).onError fun s => .refl s.board
  split
  · exact asks_pushFirst chunk
  · exact asks_consume chunk
  · exact moves_throw _

theorem asks_finalize : AsksEngine board finalize := uses_finalize.asksEngine

theorem extends_release (s : Session) : s.board.Extends (fun e => e.isEngine) s.release.board :=
  s.uses_release.board.mono fun _ => Event.isEngine_of_isUse

/-- **A session asks the engine only**, whatever it is asked itself. -/
theorem extends_answer (s : Session) (r : Request) :
    s.board.Extends (fun e => e.isEngine) (s.answer r).2.board := by
  cases r with
  | push chunk first => exact (asks_push chunk first).final s
  | requireNvidia policy => exact .refl s.board
  | finalize => exact asks_finalize.final s

theorem extends_after (s : Session) (requests : List Request) :
    s.board.Extends (fun e => e.isEngine) (s.after requests).board := by
  induction requests generalizing s with
  | nil => exact .refl s.board
  | cons r rest ih => exact (s.extends_answer r).trans (ih (s.answer r).2)

end Session

/-! ### Authenticators -/

namespace Authenticator

variable {α : Type}

/-- The calls between two states of an authenticator are all of a kind, and its chip, its guard and
the fuses are what they were. -/
structure Extends (p : Event → Prop) (a a' : Authenticator) : Prop where
  chip : a'.chip = a.chip
  guard : a'.guard = a.guard
  board : a.board.Extends p a'.board

variable {p q : Event → Prop} {a a' a'' : Authenticator}

theorem Extends.refl (a : Authenticator) : a.Extends p a := ⟨rfl, rfl, .refl a.board⟩

theorem Extends.trans (h : a.Extends p a') (h' : a'.Extends p a'') : a.Extends p a'' :=
  ⟨h'.chip.trans h.chip, h'.guard.trans h.guard, h.board.trans h'.board⟩

instance : Std.Refl (Extends p) := ⟨Extends.refl⟩

instance : IsTrans Authenticator (Extends p) := ⟨fun _ _ _ => Extends.trans⟩

theorem Extends.mono (h : a.Extends p a') (hpq : ∀ e, p e → q e) : a.Extends q a' :=
  ⟨h.chip, h.guard, h.board.mono hpq⟩

theorem extends_onBoard {m : Step Board α} (h : Moves (Board.Extends p) id m) :
    Moves (Extends p) id (onBoard m) := h.focus fun _ _ hboard => ⟨rfl, rfl, hboard⟩

/-- Finding out where modes come from takes a reading of the fused mode at most, which is then kept. -/
theorem moves_modeSource {R : Authenticator → Authenticator → Prop} [Std.Refl R]
    [IsTrans Authenticator R] (hread : Moves R id (onBoard Board.readFusedMode))
    (hkeep : ∀ (a : Authenticator) mode, R a { a with fusedMode := some mode }) (type : BinaryType) :
    Moves R id (modeSource type) := by
  have hdecode : Moves R id decodeFuses := by
    apply moves_get.bind
    intro a
    cases a.fusedMode with
    | some mode => exact moves_pure mode
    | none =>
      exact hread.bind fun mode => (moves_modify fun a => hkeep a mode).bind fun _ => moves_pure _
  apply moves_get.bind
  intro a
  split
  · exact moves_pure _
  · exact hdecode.bind fun _ => moves_pure _

theorem extends_modeSource (type : BinaryType) :
    Moves (Extends fun e => e.isLook) id (modeSource type) :=
  moves_modeSource (extends_onBoard Board.asks_readFusedMode) (fun a _ => ⟨rfl, rfl, .refl a.board⟩)
    type

/-- Opening a session looks at fuses at most, and the session takes the hardware as it is then. -/
theorem ensures_openSession_extends (a : Authenticator) (type : BinaryType) (dest : Bytes) :
    Step.Ensures (openSession type dest) a
      (fun s a' => s.platform = a'.platform ∧ a.Extends (fun e => e.isLook) a')
      (fun _ a' => a.Extends (fun e => e.isLook) a') := by
  simp only [openSession, ensures_bind, ensures_require, ensures_get]
  constructor
  · intro hcapacity
    refine (extends_modeSource type a).mono ?_ fun _ _ h => h
    intro source a' h
    simp only [Session.start]
    cases Window.ofCapacity dest.length with
    | error e => exact h
    | ok window => exact ⟨rfl, h⟩
  · intro hcapacity
    exact .refl a

/-- Ending a session that has asked the engine only. -/
theorem extends_endSession {s s' : Session} (hs : s.platform = a'.platform)
    (h : s.board.Extends (fun e => e.isEngine) s'.board) :
    a'.Extends (fun e => e.isEngine) (endSession s' a') := by
  have hboard : s.board = a'.board := congrArg Platform.board hs
  exact ⟨rfl, rfl, hboard ▸ h.trans s'.extends_release⟩

/-- A session that asks the engine only leaves the fuses and the guard alone. -/
theorem extends_withSession {m : Step Session α} (h : AsksEngine Session.board m) (type : BinaryType)
    (dest : Bytes) :
    Moves (Extends fun e => e.isWrite = false) id (withSession type dest m) := by
  intro a
  simp only [withSession, ensures_bind, ensures_focus]
  refine (ensures_openSession_extends a type dest).mono ?_ ?_
  · rintro s a' ⟨hs, hlook⟩
    have hall : ∀ s', s.board.Extends (fun e => e.isEngine) s'.board →
        a.Extends (fun e => e.isWrite = false) (endSession s' a') := by
      intro s' hs'
      have hend := extends_endSession hs hs'
      exact (hlook.mono fun _ => Event.not_isWrite_of_isLook).trans
        (hend.mono fun _ => Event.not_isWrite_of_isEngine)
    exact (h s).mono (fun _ => hall) fun _ => hall
  · exact fun _ _ hlook => hlook.mono fun _ => Event.not_isWrite_of_isLook

theorem extends_visit (type : BinaryType) (dest : Bytes) (requests : List Session.Request) :
    Moves (Extends fun e => e.isWrite = false) id (visit type dest requests) := by
  intro a
  simp only [visit, ensures_bind, ensures_modify, ensures_pure]
  refine (ensures_openSession_extends a type dest).mono ?_ ?_
  · rintro s a' ⟨hs, hlook⟩
    refine (hlook.mono fun _ => Event.not_isWrite_of_isLook).trans ?_
    have hend := extends_endSession hs (s.extends_after requests)
    rw [Visit.last_eq]
    exact hend.mono fun _ => Event.not_isWrite_of_isEngine
  · exact fun _ _ hlook => hlook.mono fun _ => Event.not_isWrite_of_isLook

end Authenticator

end SecureBoot
