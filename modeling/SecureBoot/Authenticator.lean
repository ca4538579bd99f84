import SecureBoot.Rollback.Guard
import SecureBoot.Rollback.Token
import SecureBoot.Session.Finalize
import SecureBoot.Session.Push

/-!
All that a boot stage needs to authenticate binaries: the hardware, and the little that outlives a
single binary, namely the fused mode once it is known, the CMAC sub-keys in use and the guard
against rollback.
-/

namespace SecureBoot

structure Authenticator where
  chip : Chip
  platform : Platform
  /-- The mode that the fuses select. It is read once and then kept. -/
  fusedMode : Option FusedMode
  guard : Rollback.Guard

namespace Authenticator

variable {α : Type}

def fresh (chip : Chip) (board : Board) (state : Rollback.State) : Authenticator where
  chip := chip
  platform := ⟨board, .empty⟩
  fusedMode := none
  guard := .ofState state

def board (a : Authenticator) : Board := a.platform.board

def setBoard (b : Board) (a : Authenticator) : Authenticator :=
  { a with platform := { a.platform with board := b } }

def onBoard (m : Step Board α) : Step Authenticator α := Step.focus board setBoard m

/-- Forgets the sub-keys, say before handing over to the next stage. -/
def clearKeyCache (a : Authenticator) : Authenticator :=
  { a with platform := { a.platform with cache := .empty } }

/-- The same authenticator on a part with other fuses. -/
def replaceFuses (fuses : FuseBank) (a : Authenticator) : Authenticator :=
  a.setBoard { a.board with fuses := fuses }

/-! ### Sessions -/

/-- The mode that the fuses select. What has been read is kept; a reading that fails is not. -/
def decodeFuses : Step Authenticator FusedMode := do
  let a ← get
  match a.fusedMode with
  | some mode => return mode
  | none =>
    let mode ← onBoard Board.readFusedMode
    modify fun a => { a with fusedMode := some mode }
    return mode

/-- Where the modes of a type of binary come from. Rollback tokens are signed in the chip's token
mode, however the part is fused. -/
def modeSource (type : BinaryType) : Step Authenticator ModeSource := do
  let a ← get
  if type = .rollbackToken then
    return .fixed a.chip.tokenMode
  return .fused (← decodeFuses)

/-- Opens a session for a binary of a type, into a destination. -/
def openSession (type : BinaryType) (dest : Bytes) : Step Authenticator Session := do
  Step.require (dest ≠ []) .invalid
  let source ← modeSource type
  let a ← get
  Step.ofExcept (Session.start a.platform source (a.chip.policy type) dest)

/-- Ends a session: whatever is still open is closed and the hardware is taken back. -/
def endSession (s : Session) (a : Authenticator) : Authenticator :=
  { a with platform := s.release.platform }

/-- Runs a session from its opening to its end, which comes also if the session fails. -/
def withSession (type : BinaryType) (dest : Bytes) (m : Step Session α) :
    Step Authenticator α := do
  let s ← openSession type dest
  Step.focus (fun _ => s) endSession m

/-! ### Rollback -/

/-- Holds the level that a verified binary declares against its floor. -/
def checkRollback (a : Authenticator) (type : BinaryType) (level : UInt8) : Except Error Unit :=
  a.guard.check type level

def hardwareLevel : Step Authenticator UInt8 := do
  let a ← get
  onBoard a.guard.hardwareLevel

/-- Holds the level of the boot metadata against the hardware counter. -/
def enforceRollback : Step Authenticator Rollback.Enforcement :=
  Step.focus (fun a => (a.guard, a.board)) (fun s a => { a.setBoard s.2 with guard := s.1 })
    Rollback.Guard.enforce

/-- Bytes of a rollback token together with its header. -/
abbrev tokenImageSize : Nat := Header.size + Rollback.Token.size

/-- The token in a token image, which is a header that declares exactly a token and the token. -/
def parseToken (image : Bytes) : Except Error Rollback.Token := do
  match ← Header.parse image (.capacity Rollback.Token.size) with
  | none => throw .notFound
  | some h =>
    if h.length = Rollback.Token.size ∧ tokenImageSize ≤ image.length then
      Rollback.Token.parse ((image.take tokenImageSize).drop Header.size)
    else
      throw .invalid

/-- Accepts a rollback-bypass token, which turns rollback prevention off for the rest of the boot.
Its body is checked before its signature is. -/
def bypassRollback (image : Bytes) : Step Authenticator Unit := do
  let token ← Step.ofExcept (parseToken image)
  let a ← get
  let uniqueId ← onBoard Board.readUniqueId
  Step.ofExcept (token.check a.chip.tokenVersion uniqueId)
  withSession .rollbackToken (List.replicate Rollback.Token.size 0) do
    Session.push (image.take tokenImageSize) true
    let _ ← Session.finalize
  modify fun a => { a with guard := a.guard.disable }

end Authenticator

end SecureBoot
