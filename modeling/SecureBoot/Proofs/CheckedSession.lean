import SecureBoot.Proofs.Checked
import SecureBoot.Session.History

/-!
Sessions with every bound checked. The steps of a session take what is in range for granted: they
subtract, add, index and slice as if nothing could go wrong, and they move the cursors as if no move
could be refused. Here the same steps are written out with each of these looked at. The headers are
reached by their index, there is room for `maxHeaders` of them and for `maxOperations` operations of
each, and a cursor that may not move is a bound broken like any other.

`Session.checkedAnswer` is what such a session answers to a request.
-/

namespace SecureBoot

open Checked

/-! ### Offsets -/

namespace Layer

variable {σ : Type}

def checkedDone (l : Layer) : Checked σ Nat := sub l.processed Header.signedSize

def checkedSafeEnd (l : Layer) : Checked σ Nat := do
  let done ← l.checkedDone
  add l.start done

def checkedStop (l : Layer) : Checked σ Nat := add l.start l.size

/-- How much of the bytes from `start` up to `limit` runs at once, in a payload that ends at `stop`. -/
def checkedRun (l : Layer) (start limit stop : Nat) : Checked σ Nat := do
  let ready ← sub limit start
  if limit < stop then
    bound (0 < l.mode.granule)
    sub ready (ready % l.mode.granule)
  else
    return ready

end Layer

namespace Session

/-! ### The headers of a session, by their index -/

/-- Room for headers. -/
abbrev maxHeaders : Nat := 2

/-- Room for the operations of a header. -/
abbrev maxOperations : Nat := 2

def headerAt (i : Nat) : Checked Session Layer := do
  let s ← get
  match s.chain.layers[i]? with
  | some l => return l
  | none => broken

/-- Puts another layer in the place of a header. -/
def putHeader (i : Nat) (l : Layer) : Checked Session Unit := do
  let s ← get
  match i, s.chain with
  | 0, .undecided _ | 0, .single _ | 0, .nested .. => set { s with chain := s.chain.withOuter l }
  | 1, .nested outer _ => set { s with chain := .nested outer l }
  | _, _ => broken

/-- Adds a header, for which there has to be room. -/
def addHeader (l : Layer) : Checked Session Unit := do
  let s ← get
  match s.chain with
  | .empty => set { s with chain := .undecided l }
  | .undecided outer | .single outer => set { s with chain := .nested outer l }
  | .nested .. => broken

/-- Whether the outer payload might still turn out to begin with another header. -/
def pending (s : Session) : Bool :=
  match s.chain with
  | .empty | .undecided _ => true
  | .single _ | .nested .. => false

def checkedRemaining : Checked Session Nat := do
  let s ← get
  match s.chain.outer? with
  | none => return 0
  | some outer => sub outer.size s.window.filled

/-! ### Pushing -/

def checkedAccept (h : Header) (start : Nat) : Checked Session Unit := do
  let s ← get
  bound (s.headerCount < maxHeaders)
  let mode ← lift (Step.ofExcept (resolve h.signingWord s.source s.permitted))
  bound (mode.plan.length ≤ maxOperations)
  let opened ← lift (onPlatform (Platform.openContexts mode s.keys h mode.plan))
  let contexts ← lift
    (Step.onError (closeAll opened) (onBoard (Board.feedSection h.signedSection opened)))
  let _ ← add Header.signedSize h.length
  lift (modify fun s => { s with permitted := s.permitted.inside mode })
  addHeader { header := h, mode, start, done := 0, contexts }

/-- Runs a header over what is available to it. -/
def checkedAdvance (i available : Nat) : Checked Session Unit := do
  let l ← headerAt i
  let start ← l.checkedSafeEnd
  let stop ← l.checkedStop
  let limit := min available stop
  if limit ≤ start then
    return
  let n ← l.checkedRun start limit stop
  if n = 0 then
    return
  let s ← get
  let reach ← add start n
  inRange s.dest start reach
  let contexts ← lift (onPiece start n (Bench.run l.contexts))
  let processed ← add l.processed n
  bound (processed ≤ l.header.coveredSize)
  putHeader i (l.advance n contexts)

def checkedSettle : Checked Session Unit := do
  let s ← get
  if ¬ s.pending then
    return
  let outer ← headerAt 0
  let done ← outer.checkedDone
  if done < Header.size ∧ done < outer.size then
    return
  let reach ← add outer.start (min done Header.size)
  inRange s.dest outer.start reach
  let opening := slice s.dest outer.start (min done Header.size)
  match ← lift (Step.ofExcept (Header.parse opening (.enclosing (outer.size - Header.size)))) with
  | none => set { s with chain := .single outer }
  | some h =>
    let start ← add outer.start Header.size
    checkedAccept h start

/-- One round of the loop over the headers. -/
def checkedRound (i : Nat) : Checked Session Unit := do
  let s ← get
  if i < s.headerCount then
    let available ← match i with
      | 0 => pure s.window.filled
      | before + 1 => do
        let l ← headerAt before
        l.checkedSafeEnd
    checkedAdvance i available
    if i = 0 then
      checkedSettle

/-- How much of the destination is output, looked up header by header. -/
def checkedSafe (outer : Layer) (inner : List Layer) : Checked Session Nat := do
  let safe ← outer.checkedSafeEnd
  inner.foldlM (fun safe l => do
    let safeEnd ← l.checkedSafeEnd
    let stop ← l.checkedStop
    return if safeEnd < stop then min safe safeEnd else safe) safe

def checkedCommit : Checked Session Unit := do
  let s ← get
  if s.pending then
    return
  match s.chain.layers with
  | [] => return
  | outer :: inner =>
    let safe ← checkedSafe outer inner
    let remaining ← checkedRemaining
    let covered ← sub outer.header.coveredSize outer.processed
    bound (remaining ≤ covered)
    sure (onWindow (Window.commit safe))

def checkedPump : Checked Session Unit := do
  checkedRound 0
  checkedRound 1
  let s ← get
  -- There is no header left for another round.
  bound (s.headerCount ≤ maxHeaders)
  checkedCommit

def checkedConsume (payload : Bytes) : Checked Session Unit := do
  let remaining ← checkedRemaining
  let n := min payload.length remaining
  inRange payload 0 n
  let extent ← sure (onWindow (Window.fill n))
  let s ← get
  inRange s.dest extent.start extent.stop
  -- Both sides of the copy are of one length.
  bound (extent.stop - extent.start = n)
  set { s with dest := overwrite s.dest extent.start (payload.take n) }
  checkedPump

def checkedPushFirst (chunk : Bytes) : Checked Session Unit := do
  let s ← get
  match ← lift (Step.ofExcept (Header.parse chunk (.capacity s.window.capacity))) with
  | none => throw .notFound
  | some h =>
    checkedAccept h 0
    inRange chunk Header.size chunk.length
    let payload := chunk.drop Header.size
    let outer ← headerAt 0
    modify fun s => { s with
      phase := .processing
      short := h.length ≤ payload.length && outer.mode.isPaired }
    checkedConsume payload

def checkedPush (chunk : Bytes) (first : Bool) : Checked Session Unit :=
  Checked.onError (fun s => { s with phase := .failed }) do
    let s ← get
    match s.phase, first with
    | .awaitingHeader, true => checkedPushFirst chunk
    | .processing, false => checkedConsume chunk
    | _, _ => throw .invalid

/-! ### The verdict -/

def checkedJudge : Checked Session Verified := do
  let s ← get
  lift (Step.require (s.phase = .processing) .invalid)
  match s.chain.outer? with
  | none => throw .invalid
  | some outer =>
    let remaining ← checkedRemaining
    lift (Step.require (remaining = 0 ∧ s.window.safe = outer.size) .invalid)
    lift (Step.require (s.nvidiaHeader.isMet (s.chain.layers.map Layer.isNvidia)) .verifyFailed)
    lift (onBoard (Board.finalizeAll s.chain.contexts))
    let last ← sub s.headerCount 1
    let innermost ← headerAt last
    let stop ← innermost.checkedStop
    return {
      image := ⟨innermost.start, stop⟩
      headers := s.headerCount
      rollbackLevel := innermost.header.rollbackLevel
      nvidiaSigned := s.chain.layers.any Layer.isNvidia }

def checkedFinalize : Checked Session Verified :=
  Checked.ensuring (fun s => { s.release with phase := if s.phase = .failed then .failed else .done })
    checkedJudge

/-- What a session answers that checks every bound, and what becomes of it, unless it finds one
broken. -/
def checkedAnswer (s : Session) : Request → Option (Answer × Session)
  | .push chunk first => ((checkedPush chunk first).exec s).map (Prod.map .push id)
  | .requireNvidia policy => some (.requireNvidia, s.requireNvidia policy)
  | .finalize => (checkedFinalize.exec s).map (Prod.map .finalize id)

end Session

end SecureBoot
