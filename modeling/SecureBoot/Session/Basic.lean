import SecureBoot.Chip
import SecureBoot.Mode.Resolution
import SecureBoot.Session.Operations

/-!
A session authenticates one binary, which it is handed in chunks, into a destination. It waits for a
header, then treats every byte as payload: the bytes are copied raw into the destination and run, in
place, through the operations of each header that covers them, outermost first. That a binary is
authentic is decided when the session is finalized and not a moment before.
-/

namespace SecureBoot

inductive Phase where
  | awaitingHeader | processing
  /-- Finalized, whatever the verdict. -/
  | done
  /-- A push has failed. Nothing more is accepted. -/
  | failed
deriving DecidableEq, Repr

structure Session where
  /-- The hardware, which is lent to the session while it is open. -/
  platform : Platform
  source : ModeSource
  keys : KeyTable
  /-- Modes still permitted for headers that are yet to come. -/
  permitted : ModeSet
  /-- The NVIDIA signatures required when the session is finalized. -/
  nvidiaHeader : NvidiaPolicy
  dest : Bytes
  window : Window
  chain : Chain
  /-- Whether the mode pairs decryption with verification and the first chunk held the whole
  payload, which then goes to the engine in one piece. -/
  short : Bool
  phase : Phase
deriving DecidableEq, Repr

namespace Session

variable {α : Type}

/-- A session that awaits its header. -/
def start (platform : Platform) (source : ModeSource) (policy : BinaryPolicy) (dest : Bytes) :
    Except Error Session := do
  let window ← Window.ofCapacity dest.length
  return {
    platform, source, dest, window
    keys := policy.keys
    permitted := policy.allowed
    nvidiaHeader := policy.nvidiaHeader
    chain := .empty
    short := false
    phase := .awaitingHeader }

/-! ### What can be seen of a session -/

def headerCount (s : Session) : Nat := s.chain.layers.length

/-- The index of the innermost header. -/
def currentHeader? (s : Session) : Option Nat :=
  match s.headerCount with
  | 0 => none
  | n + 1 => some n

/-- Bytes of the destination, from its start, that are output. -/
def safeLength (s : Session) : Nat := s.window.safe

/-- Bytes of the outer payload that have not been pushed. -/
def remaining (s : Session) : Nat :=
  match s.chain.outer? with
  | none => 0
  | some outer => outer.size - s.window.filled

/-! ### Parts -/

def onPlatform (m : Step Platform α) : Step Session α :=
  Step.focus Session.platform (fun p s => { s with platform := p }) m

def onBoard (m : Step Board α) : Step Session α := onPlatform (Platform.onBoard m)

def onWindow (m : Step Window α) : Step Session α :=
  Step.focus Session.window (fun w s => { s with window := w }) m

/-- A step on the board and on the `n` bytes of the destination from `start` on. -/
def onPiece (start n : Nat) (m : Step Bench α) : Step Session α :=
  Step.focus (fun s => ⟨s.platform.board, slice s.dest start n⟩)
    (fun w s => { s with
      platform := { s.platform with board := w.board }
      dest := overwrite s.dest start w.piece }) m

def closeAll (contexts : List Context) (s : Session) : Session :=
  { s with platform := s.platform.closeAll contexts }

/-- Closes every operation that is still open. -/
def release (s : Session) : Session :=
  { s with
    platform := s.platform.closeAll s.chain.contexts
    chain := s.chain.map Layer.released }

end Session

end SecureBoot
