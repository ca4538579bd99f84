import SecureBoot.Bytes.LittleEndian

/-!
Rollback levels in fuses. A fuse only ever goes from 0 to 1, so a level is kept in unary: level `n`
is the lowest `n` bits, moving forward sets more of them and there is no moving back. A counter is
read by how many of its bits are set, wherever they are.
-/

namespace SecureBoot.Rollback

/-- The number that a counter of 32 bits holds at a level. Levels past 32 do not fit and set every
bit. -/
def fuseOfLevel (level : UInt8) : UInt32 := UInt32.ofNat (1 <<< min level.toNat 32 - 1)

/-- The level that a counter is at. -/
def levelOfFuse (value : UInt32) : UInt8 :=
  UInt8.ofNat ((List.range 32).countP value.toNat.testBit)

/-- What is burned into a counter of `size` bytes to move it to a level. -/
def burnData (level : UInt8) (size : Nat) : Bytes := toLE size (fuseOfLevel level).toNat

end SecureBoot.Rollback
