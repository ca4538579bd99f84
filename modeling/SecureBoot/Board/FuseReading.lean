import SecureBoot.Board.Basic
import SecureBoot.Mode.Fused

/-!
What is read out of the fuses. A field is asked for its size first, so that a field of a wrong size
is never read.
-/

namespace SecureBoot.Board

/-- Reads a field of one to four bytes as a number. -/
def readWord (field : FuseField) : Step Board UInt32 := do
  let size ← query field
  Step.require (1 ≤ size ∧ size ≤ 4) .invalid
  let value ← read field size
  return UInt32.ofNat (ofLE value)

/-- Reads the 16-byte identity of the device. -/
def readUniqueId : Step Board Bytes := do
  let size ← query .uniqueId
  Step.require (size = 16) .invalid
  read .uniqueId size

/-- Reads the security mode that the fuses select. -/
def readFusedMode : Step Board FusedMode := do
  let b ← get
  let info ← readWord .bootSecurityInfo
  Step.ofExcept (FusedMode.ofFuses b.fuses.secure info)

end SecureBoot.Board
