import SecureBoot.Bytes.Basic

/-!
Numbers as bytes, least significant byte first. `toLE` writes the last `width` base-256 digits of
a number and `ofLE` reads any byte string as a number. Reading undoes writing as long as the digits
suffice, as four do for a word (`ofLE_wordBytes`).
-/

namespace SecureBoot

def ofLE : Bytes → Nat
  | [] => 0
  | b :: rest => b.toNat + 256 * ofLE rest

def toLE : Nat → Nat → Bytes
  | 0, _ => []
  | width + 1, n => UInt8.ofNat n :: toLE width (n / 256)

@[simp] theorem length_toLE (width n : Nat) : (toLE width n).length = width := by
  induction width generalizing n with
  | zero => rfl
  | succ width ih => simp [toLE, ih]

/-- The four bytes of a 32-bit word. -/
def wordBytes (w : UInt32) : Bytes := toLE 4 w.toNat

@[simp] theorem length_wordBytes (w : UInt32) : (wordBytes w).length = 4 := length_toLE 4 _

@[simp] theorem ofLE_wordBytes (w : UInt32) : ofLE (wordBytes w) = w.toNat := by
  have := w.toNat_lt
  simp [wordBytes, toLE, ofLE]
  omega

end SecureBoot
