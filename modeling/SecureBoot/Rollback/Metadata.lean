import SecureBoot.Chip
import SecureBoot.Bytes.Block

/-!
The rollback section of boot metadata, 20 bytes on storage, and what it amounts to on a chip: each
floor is the higher of the one in the metadata and the chip's own.
-/

namespace SecureBoot.Rollback

/-- Floors that metadata has room for, more than there are types of binary. -/
abbrev floorSlots : Nat := 16

structure Metadata extends Block 20
deriving DecidableEq, Repr

namespace Metadata

def enabled (m : Metadata) : Bool := m.byte 0 ≠ 0

/-- Which rollback counter the device uses. -/
def fuseIndex (m : Metadata) : UInt8 := m.byte 1

def level (m : Metadata) : UInt8 := m.byte 2

/-- The lowest level that a binary of a type may have. -/
def floor (m : Metadata) (type : BinaryType) : UInt8 := m.byte (4 + type.number)

/-- Metadata with every floor at zero. -/
def blank (enabled : Bool) (fuseIndex level : UInt8) : Metadata :=
  ⟨(Block.zero 20).setField 0 [if enabled then 1 else 0, fuseIndex, level]⟩

def setFloor (m : Metadata) (slot : Fin floorSlots) (value : UInt8) : Metadata :=
  ⟨m.setField (4 + slot) [value]⟩

/-- The metadata that some bytes start with. -/
def ofStart? (b : Bytes) : Option Metadata := (Block.ofStart? 20 b).map Metadata.mk

end Metadata

/-- What a boot knows of the levels it has to keep. -/
structure State where
  enabled : Bool
  fuseIndex : UInt8
  /-- The level that the present firmware was built for. -/
  level : UInt8
  floor : BinaryType → UInt8

namespace State

def disabled : State := ⟨false, 0, 0, fun _ => 0⟩

def ofMetadata (chip : Chip) (m : Metadata) : State where
  enabled := m.enabled
  fuseIndex := m.fuseIndex
  level := m.level
  floor := fun type => max (chip.policy type).rollbackFloor (m.floor type)

/-- Reads metadata from storage. -/
def parse (chip : Chip) (b : Bytes) : Except Error State :=
  match Metadata.ofStart? b with
  | none => .error .invalid
  | some m => .ok (.ofMetadata chip m)

end State

end SecureBoot.Rollback
