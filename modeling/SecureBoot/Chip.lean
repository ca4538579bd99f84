import SecureBoot.BinaryType
import SecureBoot.Mode.Plan

/-!
What differs between chips: a fixed table, by type of binary, of the modes that may be used, the
NVIDIA signatures that are required, the key slots and the rollback floor. Key slots are scarce and
assigned here once and for all, which keeps two boot stages from reaching for the same slot.
-/

namespace SecureBoot

/-- The authentication policy for one type of binary. -/
structure BinaryPolicy where
  /-- Modes in which the binary may ever be authenticated. -/
  allowed : ModeSet
  nvidiaHeader : NvidiaPolicy
  keys : KeyTable
  /-- The lowest rollback level ever acceptable, whatever boot metadata says. -/
  rollbackFloor : UInt8
deriving DecidableEq, Repr

namespace BinaryPolicy

/-- The policy for a binary that only the OEM signs. -/
def oemOnly (keys : KeyTable) : BinaryPolicy where
  allowed := ModeSet.oem
  nvidiaHeader := .notRequired
  keys := keys
  rollbackFloor := 0

/-- The policy for a binary that either party may sign. -/
def either (keys : KeyTable) (nvidiaHeader : NvidiaPolicy) : BinaryPolicy where
  allowed := CryptoMode.all
  nvidiaHeader := nvidiaHeader
  keys := keys
  rollbackFloor := 0

/-- The policy for a binary that only NVIDIA signs, in its outermost header. -/
def nvidiaOnly (keys : KeyTable) : BinaryPolicy where
  allowed := [.nvidiaRsa]
  nvidiaHeader := .outerHeader
  keys := keys
  rollbackFloor := 0

end BinaryPolicy

inductive Chip where
  | t194 | t234
deriving DecidableEq, Repr

namespace Chip

def name : Chip → String
  | .t194 => "t194"
  | .t234 => "t234"

/-- The one mode in which rollback-bypass tokens are signed. -/
def tokenMode : Chip → CryptoMode
  | .t194 => .oemRsa
  | .t234 => .oemEcc

/-- The version of the token format that the chip's boot flow understands. -/
def tokenVersion : Chip → UInt32
  | .t194 => 1
  | .t234 => 2

/-- The slots of the first boot stages. -/
def bootKeys : Chip → KeyTable
  | .t194 => ⟨0, 0, 1⟩
  | .t234 => ⟨14, 14, 13⟩

/-- The slots of the firmware that those stages load. -/
def firmwareKeys : Chip → KeyTable
  | .t194 => ⟨0, 2, 1⟩
  | .t234 => ⟨14, 12, 13⟩

/-- The slots from the CPU bootloader onwards. -/
def lateKeys : Chip → KeyTable
  | .t194 => ⟨4, 4, 5⟩
  | .t234 => ⟨11, 11, 10⟩

def policy (chip : Chip) : BinaryType → BinaryPolicy
  | .mb1 => { BinaryPolicy.either chip.bootKeys .anyHeader with rollbackFloor := 1 }
  | .mb1Bct => .oemOnly chip.bootKeys
  | .mts => .nvidiaOnly (match chip with | .t194 => chip.firmwareKeys | .t234 => chip.bootKeys)
  | .mb2 | .bpmp => .either chip.firmwareKeys .anyHeader
  | .spe =>
    match chip with
    | .t194 => .oemOnly chip.firmwareKeys
    | .t234 => .either chip.firmwareKeys .notRequired
  | .tos => .oemOnly chip.firmwareKeys
  | .cpubl | .kernel | .kernelDtb => .oemOnly chip.lateKeys
  | .rollbackToken => { BinaryPolicy.oemOnly chip.firmwareKeys with allowed := [chip.tokenMode] }

end Chip

end SecureBoot
