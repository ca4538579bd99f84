import SecureBoot.Bytes.Block

/-!
The signature header at the front of every signed binary: 400 bytes, of which the last 128 are
covered by the signature. A header is kept as its bytes, since the signature covers the reserved
ones as well, and `Field` names the stretches that tile it. Reading a field after a write is
settled by `get_set_self` and `get_set_of_ne`.
-/

namespace SecureBoot

/-- How a header claims to be signed. -/
inductive SigningType where
  | unsigned | oemRsa | oemEcc | nvidiaRsa | symmetric | oemRsaEncrypted
deriving DecidableEq, Repr

namespace SigningType

def all : List SigningType :=
  [.unsigned, .oemRsa, .oemEcc, .nvidiaRsa, .symmetric, .oemRsaEncrypted]

/-- The number that stands for the type in a header. -/
def number : SigningType → Nat
  | .unsigned => 0
  | .oemRsa => 1
  | .oemEcc => 2
  | .nvidiaRsa => 3
  | .symmetric => 4
  | .oemRsaEncrypted => 5

def ofNumber? (n : Int) : Option SigningType :=
  all.find? fun t => (t.number : Int) = n

@[simp] theorem ofNumber?_number (t : SigningType) : ofNumber? t.number = some t := by
  cases t <;> rfl

theorem ofNumber?_eq_some_iff {n : Int} {t : SigningType} :
    ofNumber? n = some t ↔ n = t.number := by
  constructor
  · intro h
    simpa [eq_comm] using List.find?_some h
  · rintro rfl
    simp

theorem number_injective {s t : SigningType} (h : s.number = t.number) : s = t := by
  have hs := ofNumber?_number s
  rw [h, ofNumber?_number] at hs
  exact (Option.some.inj hs).symm

end SigningType

/-- The first four bytes of a header made by the signing tools of the boot ROM. -/
def gshvMagic : Bytes := [0x47, 0x53, 0x48, 0x56]

/-- The first four bytes of every other header. -/
def nvdaMagic : Bytes := [0x4e, 0x56, 0x44, 0x41]

structure Header extends Block 400
deriving DecidableEq, Repr

namespace Header

abbrev size : Nat := 400

/-- Where the part of a header begins that its signature covers. -/
abbrev signedStart : Nat := 272

abbrev signedSize : Nat := 128

inductive Field where
  | magic | version | signature | outerReserve | binaryMagic | signingType | length
  | ratchetLevel | rollbackLevel | keyIndex | levelReserve | iv | signedReserve
deriving DecidableEq, Repr

namespace Field

def start : Field → Nat
  | .magic => 0
  | .version => 4
  | .signature => 8
  | .outerReserve => 264
  | .binaryMagic => 272
  | .signingType => 276
  | .length => 280
  | .ratchetLevel => 284
  | .rollbackLevel => 285
  | .keyIndex => 286
  | .levelReserve => 287
  | .iv => 288
  | .signedReserve => 304

def width : Field → Nat
  | .magic | .version | .binaryMagic | .signingType | .length => 4
  | .signature => 256
  | .outerReserve => 8
  | .ratchetLevel | .rollbackLevel | .keyIndex | .levelReserve => 1
  | .iv => 16
  | .signedReserve => 96

theorem start_add_width_le (f : Field) : f.start + f.width ≤ size := by
  cases f <;> decide

theorem disjoint {f g : Field} (h : f ≠ g) :
    f.start + f.width ≤ g.start ∨ g.start + g.width ≤ f.start := by
  revert h
  cases f <;> cases g <;> decide

end Field

def get (h : Header) (f : Field) : Bytes := h.field f.start f.width

/-- Writes a field. The value is cut, or filled up with zeros, to the width of the field. -/
def set (h : Header) (f : Field) (value : Bytes) : Header :=
  ⟨h.setField f.start (fit f.width value)⟩

@[simp] theorem get_set_self (h : Header) (f : Field) (value : Bytes) :
    (h.set f value).get f = fit f.width value := by
  have hw := f.start_add_width_le
  have := Block.field_setField_self h.toBlock f.start (fit f.width value) (by simpa using hw)
  simpa [get, set] using this

theorem get_set_of_ne (h : Header) {f g : Field} (value : Bytes) (hne : f ≠ g) :
    (h.set f value).get g = h.get g := by
  have hw := f.start_add_width_le
  exact Block.field_setField_of_disjoint (by simpa using hw) (by simpa using Field.disjoint hne)

/-! ### What a header declares -/

def magic (h : Header) : Bytes := h.get .magic

def version (h : Header) : UInt32 := h.word Field.version.start

def signature (h : Header) : Bytes := h.get .signature

def binaryMagic (h : Header) : Bytes := h.get .binaryMagic

/-- The claimed signing type as it is stored. The header is not to be trusted, so this is a mere
number until a mode has been resolved from it. -/
def signingWord (h : Header) : UInt32 := h.word Field.signingType.start

/-- Bytes of the payload that follows the header. -/
def length (h : Header) : Nat := (h.word Field.length.start).toNat

def ratchetLevel (h : Header) : UInt8 := h.byte Field.ratchetLevel.start

def rollbackLevel (h : Header) : UInt8 := h.byte Field.rollbackLevel.start

def keyIndex (h : Header) : UInt8 := h.byte Field.keyIndex.start

def iv (h : Header) : Bytes := h.get .iv

/-- The part of the header that its signature covers, together with the payload. -/
def signedSection (h : Header) : Bytes := h.field signedStart signedSize

/-- Bytes that the signature covers in all. -/
def coveredSize (h : Header) : Nat := signedSize + h.length

/-- Where a CMAC stands in the signature field. -/
def cmac (h : Header) : Bytes := h.signature.take 16

/-- Where the two components of an ECDSA signature stand, back to back. -/
def ecdsaSignature (h : Header) : Bytes := h.signature.take 96

def rsaSignature (h : Header) : Bytes := h.signature.take 256

/-- A header with nothing in it but its magic, a signing type and a payload length, as signing
tools begin with. -/
def blank (type : SigningType) (length : UInt32) : Header :=
  let empty : Header := ⟨Block.zero size⟩
  ((empty.set .magic nvdaMagic).set .signingType (toLE 4 type.number)).set .length (wordBytes length)

@[simp] theorem length_bytes_eq (h : Header) : h.bytes.length = size := h.length_bytes

@[simp] theorem length_signedSection (h : Header) : h.signedSection.length = signedSize := by
  simp [signedSection, Block.field, signedStart, signedSize]

theorem length_lt (h : Header) : h.length < 4294967296 := (h.word Field.length.start).toNat_lt

end Header

end SecureBoot
