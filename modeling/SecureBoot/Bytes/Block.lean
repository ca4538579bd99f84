import SecureBoot.Bytes.LittleEndian

/-!
Blocks: byte strings whose length is fixed, as the layouts on storage are. A block keeps every one
of its bytes, also those no field names, and a field of it is a stretch of bytes. Reading a field
after writing one is `field_setField_self` and `field_setField_of_disjoint`.
-/

namespace SecureBoot

structure Block (n : Nat) where
  bytes : Bytes
  length_bytes : bytes.length = n
deriving DecidableEq, Repr

namespace Block

variable {n : Nat}

attribute [simp] length_bytes

theorem ext {a b : Block n} (h : a.bytes = b.bytes) : a = b := by
  cases a; cases b; cases h; rfl

def zero (n : Nat) : Block n := ⟨List.replicate n 0, List.length_replicate⟩

/-- The bytes as a block, if they are exactly as many as it takes. -/
def ofBytes? (n : Nat) (b : Bytes) : Option (Block n) :=
  if h : b.length = n then some ⟨b, h⟩ else none

/-- The block that `b` starts with, if it is long enough. -/
def ofStart? (n : Nat) (b : Bytes) : Option (Block n) :=
  ofBytes? n (b.take n)

def field (b : Block n) (start width : Nat) : Bytes := slice b.bytes start width

/-- The byte at an offset; 0 past the end. -/
def byte (b : Block n) (start : Nat) : UInt8 := b.bytes.getD start 0

/-- The little-endian 32-bit word at an offset. -/
def word (b : Block n) (start : Nat) : UInt32 := UInt32.ofNat (ofLE (b.field start 4))

def setField (b : Block n) (start : Nat) (value : Bytes) : Block n :=
  ⟨overwrite b.bytes start value, by simp⟩

theorem ofBytes?_eq_some_iff {b : Bytes} {k : Block n} : ofBytes? n b = some k ↔ b = k.bytes := by
  unfold ofBytes?
  split
  · constructor
    · intro h
      cases h
      rfl
    · rintro rfl
      rfl
  · next h =>
    simp only [reduceCtorEq, false_iff]
    rintro rfl
    exact h k.length_bytes

theorem ofStart?_eq_some_iff {b : Bytes} {k : Block n} :
    ofStart? n b = some k ↔ b.take n = k.bytes := ofBytes?_eq_some_iff

theorem ofStart?_eq_none_iff {b : Bytes} : ofStart? n b = none ↔ b.length < n := by
  simp only [ofStart?, ofBytes?, List.length_take]
  split
  · simp only [reduceCtorEq, false_iff]
    omega
  · simp only [true_iff]
    omega

/-- A byte is read as the field of one byte. -/
theorem byte_eq_getD_field (b : Block n) (start : Nat) :
    b.byte start = (b.field start 1).getD 0 0 := by
  rw [byte, field, List.getD_eq_getElem?_getD, List.getD_eq_getElem?_getD, getElem?_slice]
  rfl

@[simp] theorem field_setField_self (b : Block n) (start : Nat) (value : Bytes)
    (h : start + value.length ≤ n) : (b.setField start value).field start value.length = value :=
  slice_overwrite_self (by simpa using h)

theorem field_setField_of_disjoint {b : Block n} {start start' width : Nat} {value : Bytes}
    (h : start + value.length ≤ n)
    (hd : start + value.length ≤ start' ∨ start' + width ≤ start) :
    (b.setField start value).field start' width = b.field start' width :=
  slice_overwrite_of_disjoint (by simpa using h) hd

end Block

end SecureBoot
