import SecureBoot.Error
import SecureBoot.Mode.Basic

/-!
The operations that a mode asks of the security engine, in their order, and the key of each. A
signature of an encrypting OEM covers what is on storage, so it is checked before decrypting;
NVIDIA's covers the plaintext, so it is checked after.
-/

namespace SecureBoot

inductive Algorithm where
  | aesCbcDecrypt | aesCmac | rsaPss | ecdsa
deriving DecidableEq, Repr

/-- Whether the operation checks a signature. Such an operation also runs over the signed section
of the header; a decryption runs over the payload only. -/
def Algorithm.verifies : Algorithm → Bool
  | .aesCbcDecrypt => false
  | _ => true

/-- A hardware key slot of the security engine. -/
abbrev KeySlot := UInt8

/-- A key that the engine can reach. -/
inductive Key where
  | slot (number : KeySlot)
  /-- One of the OEM's public keys. -/
  | oem (index : UInt8)
  /-- NVIDIA's public key. -/
  | nvidia
deriving DecidableEq, Repr

/-- The key slots that a type of binary uses. -/
structure KeyTable where
  cmac : KeySlot
  oemDecrypt : KeySlot
  nvidiaDecrypt : KeySlot
deriving DecidableEq, Repr

namespace CryptoMode

/-- The operations of a mode, in the order in which data runs through them. -/
def plan : CryptoMode → List Algorithm
  | .symmetric => [.aesCmac]
  | .oemRsa => [.rsaPss]
  | .oemEcc => [.ecdsa]
  | .oemRsaEncrypted => [.rsaPss, .aesCbcDecrypt]
  | .nvidiaRsa => [.aesCbcDecrypt, .rsaPss]

def decrypts (m : CryptoMode) : Bool := m.plan.contains .aesCbcDecrypt

/-- The engine takes payload in pieces of a multiple of this size, the last piece aside: whole
cipher blocks where the mode decrypts. -/
def granule (m : CryptoMode) : Nat := if m.decrypts then 16 else 1

theorem granule_pos (m : CryptoMode) : 0 < m.granule := by cases m <;> decide

/-- OEM public keys that a header may select among. -/
def oemPublicKeys : Nat := 3

/-- The key for one operation of a mode, in a header that selects `keyIndex`. -/
def key (m : CryptoMode) (keys : KeyTable) (keyIndex : UInt8) (alg : Algorithm) :
    Except Error Key :=
  match alg, m with
  | .aesCmac, _ => .ok (.slot keys.cmac)
  | .aesCbcDecrypt, .nvidiaRsa => .ok (.slot keys.nvidiaDecrypt)
  | .aesCbcDecrypt, _ => .ok (.slot keys.oemDecrypt)
  | .rsaPss, .nvidiaRsa => .ok .nvidia
  | .rsaPss, _ | .ecdsa, _ =>
    if keyIndex.toNat < oemPublicKeys then .ok (.oem keyIndex) else .error .invalid

end CryptoMode

end SecureBoot
