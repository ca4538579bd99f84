import SecureBoot.Session.Basic

/-!
The verdict on a binary. It is given once, over a payload that has been pushed and run completely,
and every operation is closed on the way out, whatever the verdict.
-/

namespace SecureBoot

/-- What is known of a binary that has been found authentic. -/
structure Verified where
  /-- Where the innermost payload lies in the destination. -/
  image : Extent
  headers : Nat
  /-- The rollback level that the innermost header declares. -/
  rollbackLevel : UInt8
  nvidiaSigned : Bool
deriving DecidableEq, Repr

namespace Session

/-- Overrides the NVIDIA signatures that the type of the binary requires. -/
def requireNvidia (policy : NvidiaPolicy) (s : Session) : Session :=
  { s with nvidiaHeader := policy }

/-- What a session reports of its chain. -/
def verified (s : Session) (innermost : Layer) : Verified where
  image := innermost.extent
  headers := s.headerCount
  rollbackLevel := innermost.header.rollbackLevel
  nvidiaSigned := s.chain.layers.any Layer.isNvidia

/-- Comes to the verdict, with the operations still open. -/
def judge : Step Session Verified := do
  let s ← get
  Step.require (s.phase = .processing) .invalid
  match s.chain.outer?, s.chain.innermost? with
  | some outer, some innermost =>
    Step.require (s.remaining = 0 ∧ s.window.safe = outer.size) .invalid
    Step.require (s.nvidiaHeader.isMet (s.chain.layers.map Layer.isNvidia)) .verifyFailed
    onBoard (Board.finalizeAll s.chain.contexts)
    return s.verified innermost
  | _, _ => throw .invalid

def finalize : Step Session Verified :=
  judge.ensuring fun s =>
    { s.release with phase := if s.phase = .failed then .failed else .done }

end Session

end SecureBoot
