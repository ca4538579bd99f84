import SecureBoot.Header.Basic

/-!
The modes in which a header may be authenticated, and the sets of modes that tables and sessions
permit.
-/

namespace SecureBoot

inductive CryptoMode where
  /-- A CMAC over the signed section and the payload. -/
  | symmetric
  /-- An RSA-PSS signature over both. -/
  | oemRsa
  /-- An ECDSA signature over both. -/
  | oemEcc
  /-- An RSA-PSS signature over the ciphertext, which is decrypted afterwards. -/
  | oemRsaEncrypted
  /-- Decryption, then an RSA-PSS signature over the plaintext, with NVIDIA keys. -/
  | nvidiaRsa
deriving DecidableEq, Repr

namespace CryptoMode

def all : List CryptoMode := [.symmetric, .oemRsa, .oemEcc, .oemRsaEncrypted, .nvidiaRsa]

/-- The claim that a header of this mode makes. -/
def signingType : CryptoMode → SigningType
  | .symmetric => .symmetric
  | .oemRsa => .oemRsa
  | .oemEcc => .oemEcc
  | .oemRsaEncrypted => .oemRsaEncrypted
  | .nvidiaRsa => .nvidiaRsa

def isOem : CryptoMode → Bool
  | .nvidiaRsa => false
  | _ => true

/-- Whether the mode pairs a decryption with a signature check. -/
def isPaired : CryptoMode → Bool
  | .oemRsaEncrypted | .nvidiaRsa => true
  | _ => false

/-- The weight of the mode in the number that stands for a set of modes. -/
def flag : CryptoMode → Nat
  | .symmetric => 1
  | .oemRsa => 2
  | .oemEcc => 4
  | .oemRsaEncrypted => 8
  | .nvidiaRsa => 16

theorem signingType_injective {m n : CryptoMode} (h : m.signingType = n.signingType) : m = n := by
  revert h
  cases m <;> cases n <;> decide

end CryptoMode

/-- A set of modes, by its members. -/
abbrev ModeSet := List CryptoMode

namespace ModeSet

def oem : ModeSet := CryptoMode.all.filter (·.isOem)

/-- The modes that remain for the headers inside one of mode `m`: an OEM header leaves no OEM mode,
since whatever it wraps is either signed by NVIDIA or covered by its own signature. -/
def inside (s : ModeSet) (m : CryptoMode) : ModeSet := if m.isOem then s.filter (!·.isOem) else s

/-- The number that stands for the set: each member adds its flag. -/
def bits (s : ModeSet) : Nat :=
  CryptoMode.all.foldl (fun n m => if m ∈ s then n + m.flag else n) 0

/-- The set that a number stands for. Bits that are nobody's flag are dropped. -/
def ofBits (n : Nat) : ModeSet :=
  CryptoMode.all.filter fun m => n / m.flag % 2 = 1

@[simp] theorem mem_inside {s : ModeSet} {m n : CryptoMode} :
    n ∈ s.inside m ↔ n ∈ s ∧ (m.isOem → n.isOem = false) := by
  unfold inside
  split <;> simp_all

end ModeSet

/-- Which headers of a binary have to be signed by NVIDIA. -/
inductive NvidiaPolicy where
  | notRequired
  /-- At least one header, wherever it stands. -/
  | anyHeader
  /-- The outermost header. -/
  | outerHeader
deriving DecidableEq, Repr

/-- Whether the policy is met, given for each header, outermost first, if NVIDIA signed it. -/
def NvidiaPolicy.isMet (signed : List Bool) : NvidiaPolicy → Bool
  | .notRequired => true
  | .anyHeader => signed.any id
  | .outerHeader => signed.headD false

end SecureBoot
