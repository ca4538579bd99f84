import SecureBoot.Header.Parser
import SecureBoot.Session.Basic

/-!
Pushing chunks. The first chunk has to begin with a header; the rest of it, and every other chunk,
is payload. Each push runs what has become available through the outer header's operations, settles
whether the payload begins with another header as soon as that can be told, runs the inner header's
operations over what the outer ones have released, and moves the safe cursor.
-/

namespace SecureBoot.Session

/-- Accepts a header whose payload begins at `start`: resolves its mode, sets up its operations and
runs its signed section through them. If that fails nothing stays open. -/
def accept (h : Header) (start : Nat) : Step Session Layer := do
  let s ← get
  let mode ← Step.ofExcept (resolve h.signingWord s.source s.permitted)
  let opened ← onPlatform (Platform.openContexts mode s.keys h mode.plan)
  let contexts ← Step.onError (closeAll opened) (onBoard (Board.feedSection h.signedSection opened))
  modify fun s => { s with permitted := s.permitted.inside mode }
  return { header := h, mode, start, done := 0, contexts }

/-- Runs what is available up to `available` through the operations of a layer. -/
def runLayer (l : Layer) (available : Nat) : Step Session Layer := do
  let n := l.runnable available
  if n = 0 then
    return l
  let contexts ← onPiece l.safeEnd n (Bench.run l.contexts)
  return l.advance n contexts

def runOuter : Step Session Unit := do
  let s ← get
  match s.chain.outer? with
  | none => return
  | some outer =>
    let outer ← runLayer outer s.window.filled
    modify fun s => { s with chain := s.chain.withOuter outer }

/-- Settles whether the outer payload begins with another header, once enough of it has been run to
read one or all of it has. -/
def settle : Step Session Unit := do
  let s ← get
  match s.chain with
  | .undecided outer =>
    if outer.done < Header.size ∧ outer.done < outer.size then
      return
    let opening := slice s.dest outer.start (min outer.done Header.size)
    match ← Step.ofExcept (Header.parse opening (.enclosing (outer.size - Header.size))) with
    | none => set { s with chain := .single outer }
    | some h =>
      let inner ← accept h (outer.start + Header.size)
      modify fun s => { s with chain := .nested outer inner }
  | _ => return

def runInner : Step Session Unit := do
  let s ← get
  match s.chain with
  | .nested outer inner =>
    let inner ← runLayer inner outer.safeEnd
    modify fun s => { s with chain := .nested outer inner }
  | _ => return

def commit : Step Session Unit := do
  let s ← get
  match s.chain.safe? with
  | none => return
  | some safe => onWindow (Window.commit safe)

/-- Runs the operations of every layer over what has become available to it. -/
def pump : Step Session Unit := do
  runOuter
  settle
  runInner
  commit

/-- Takes up payload. Bytes past the end of the outer payload are ignored. -/
def consume (payload : Bytes) : Step Session Unit := do
  let s ← get
  let taken := payload.take s.remaining
  let extent ← onWindow (Window.fill taken.length)
  modify fun s => { s with dest := overwrite s.dest extent.start taken }
  pump

/-- The push that brings the header. -/
def pushFirst (chunk : Bytes) : Step Session Unit := do
  let s ← get
  match ← Step.ofExcept (Header.parse chunk (.capacity s.window.capacity)) with
  | none => throw .notFound
  | some h =>
    let outer ← accept h 0
    let payload := chunk.drop Header.size
    modify fun s => { s with
      chain := .undecided outer
      phase := .processing
      short := h.length ≤ payload.length && outer.mode.isPaired }
    consume payload

/-- Pushes a chunk, which has to be marked as the first one if and only if it is. After an error the
session accepts nothing more. -/
def push (chunk : Bytes) (first : Bool) : Step Session Unit :=
  Step.onError (fun s => { s with phase := .failed }) do
    let s ← get
    match s.phase, first with
    | .awaitingHeader, true => pushFirst chunk
    | .processing, false => consume chunk
    | _, _ => throw .invalid

end SecureBoot.Session
