import SecureBoot.Bytes.Basic

/-!
FNV-1a with 64 bits, the running digest that the security engine keeps of what it has been fed.
Feeding data in pieces gives the same digest as feeding it at once (`fnv_append`).
-/

namespace SecureBoot

/-- The digest of no bytes. -/
def fnvBasis : UInt64 := 0xcbf29ce484222325

def fnvStep (acc : UInt64) (b : UInt8) : UInt64 :=
  (acc ^^^ b.toUInt64) * 0x100000001b3

/-- Continues a digest over more bytes. -/
def fnv (acc : UInt64) (data : Bytes) : UInt64 := data.foldl fnvStep acc

theorem fnv_append (acc : UInt64) (a b : Bytes) : fnv acc (a ++ b) = fnv (fnv acc a) b :=
  List.foldl_append

end SecureBoot
