import SecureBoot.Bytes.LittleEndian
import SecureBoot.Digest
import SecureBoot.Mode.Plan

/-!
The security engine, as a model that runs. An operation is set up for a region of a fixed size, is
fed the region in pieces and gives its verdict at the end. Decryption combines the data with a
keystream that depends on the key slot, the initialization vector and the position; every other
operation keeps a digest of what it is fed and compares a tag made of that digest and the key with
the expected one. Each step from the data to the tag is one to one in the digest, so that a change
of a single byte is always seen.
-/

namespace SecureBoot

/-- The two sub-keys that a CMAC needs of its key. -/
structure Subkeys where
  k1 : Bytes
  k2 : Bytes
deriving DecidableEq, Repr

/-- The sub-keys of the key in a slot. -/
def Subkeys.ofSlot (slot : KeySlot) : Subkeys where
  k1 := (List.range 16).map fun i => 17 * slot + UInt8.ofNat i
  k2 := (List.range 16).map fun i => 29 * slot + 101 + UInt8.ofNat i

def Key.label : Key → List Char
  | .slot n => ['s', 'l', 'o', 't', ':'] ++ Nat.toDigits 10 n.toNat
  | .oem i => ['o', 'e', 'm', ':'] ++ Nat.toDigits 10 i.toNat
  | .nvidia => ['n', 'v', 'i', 'd', 'i', 'a']

/-- What an operation is set up with. -/
structure Setup where
  key : Key
  /-- Bytes that the operation is fed over its lifetime. -/
  regionSize : Nat
  /-- The expected signature, as the header holds it. Empty for a decryption. -/
  expected : Bytes
  iv : Bytes
  subkeys : Option Subkeys
deriving DecidableEq, Repr

/-- The bytes by which a key takes part in a tag. -/
def Setup.keyBytes (s : Setup) : Bytes :=
  match s.subkeys with
  | some k => k.k1 ++ k.k2
  | none => s.key.label.map fun c => UInt8.ofNat c.toNat

/-- Spreads a number over 64 bits, one to one. -/
def scramble (z : UInt64) : UInt64 :=
  let z := (z ^^^ (z >>> 30)) * 0xbf58476d1ce4e5b9
  let z := (z ^^^ (z >>> 27)) * 0x94d049bb133111eb
  z ^^^ (z >>> 31)

/-- The first `size` bytes of the tag that grows from a seed. -/
def tagOfSeed (seed : UInt64) (size : Nat) : Bytes :=
  ((List.range ((size + 7) / 8)).flatMap fun i =>
    toLE 8 (scramble (seed + UInt64.ofNat (i + 1) * 0x9e3779b97f4a7c15)).toNat).take size

/-- The keystream byte at a position of the payload. -/
def keystream (slot : KeySlot) (iv : Bytes) (position : Nat) : UInt8 :=
  31 * slot + iv.getD (position % 16) 0
    + UInt8.ofNat (7 * (position / 16) + 13 * (position % 16))

/-- Decrypts payload that begins at a position. -/
def decryptAt (slot : KeySlot) (iv : Bytes) (position : Nat) (data : Bytes) : Bytes :=
  data.mapIdx fun i b => b ^^^ keystream slot iv (position + i)

/-- Decrypting in pieces is decrypting at once, each piece at its own position. -/
theorem decryptAt_append (slot : KeySlot) (iv : Bytes) (position : Nat) (a b : Bytes) :
    decryptAt slot iv position (a ++ b) =
      decryptAt slot iv position a ++ decryptAt slot iv (position + a.length) b := by
  simp only [decryptAt, List.mapIdx_append]
  congr 1
  apply List.ext_getElem?
  intro i
  simp [Nat.add_assoc, Nat.add_comm a.length]

@[simp] theorem length_decryptAt (slot : KeySlot) (iv : Bytes) (position : Nat) (data : Bytes) :
    (decryptAt slot iv position data).length = data.length := by
  simp [decryptAt]

/-- An operation in progress. -/
structure Context where
  id : Nat
  algorithm : Algorithm
  setup : Setup
  /-- Bytes fed so far. -/
  fed : Nat
  /-- The digest of what has been fed to a verifying operation. -/
  digest : UInt64
deriving DecidableEq, Repr

namespace Context

def start (id : Nat) (algorithm : Algorithm) (setup : Setup) : Context :=
  ⟨id, algorithm, setup, 0, fnvBasis⟩

/-- What the operation makes of the next piece of its region. -/
def output (c : Context) (data : Bytes) : Bytes :=
  match c.algorithm, c.setup.key with
  | .aesCbcDecrypt, .slot slot => decryptAt slot c.setup.iv c.fed data
  | _, _ => data

/-- Feeds the next piece of the region. It has to fit the region and, for a decryption, to consist
of whole cipher blocks unless it is the last piece. -/
def feed (c : Context) (data : Bytes) : Except Error (Context × Bytes) :=
  let stop := c.fed + data.length
  if c.setup.regionSize < stop then .error .invalid
  else if c.algorithm = .aesCbcDecrypt ∧ stop < c.setup.regionSize ∧ data.length % 16 ≠ 0 then
    .error .invalid
  else
    let digest := if c.algorithm.verifies then fnv c.digest data else c.digest
    .ok ({ c with fed := stop, digest := digest }, c.output data)

/-- The tag of what has been fed, as long as the expected one. -/
def tag (c : Context) : Bytes :=
  tagOfSeed (c.digest ^^^ fnv fnvBasis c.setup.keyBytes) c.setup.expected.length

/-- The verdict on the region, which must have been fed whole. -/
def verdict (c : Context) : Except Error Unit :=
  if c.fed ≠ c.setup.regionSize then .error .verifyFailed
  else if c.algorithm.verifies && c.setup.expected != c.tag then .error .verifyFailed
  else .ok ()

@[simp] theorem length_output (c : Context) (data : Bytes) :
    (c.output data).length = data.length := by
  unfold output
  split
  · simp
  · rfl

end Context

end SecureBoot
