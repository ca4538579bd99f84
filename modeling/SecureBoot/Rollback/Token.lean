import SecureBoot.Error
import SecureBoot.Bytes.Block

/-!
Rollback-bypass tokens: 32 bytes that travel behind a signature header, as any other binary does,
and switch rollback prevention off on the one device that they name.
-/

namespace SecureBoot.Rollback

/-- The letters `RPBTOKEN`. -/
def tokenMagic : Bytes := [0x52, 0x50, 0x42, 0x54, 0x4f, 0x4b, 0x45, 0x4e]

structure Token extends Block 32
deriving DecidableEq, Repr

namespace Token

abbrev size : Nat := 32

def magic (t : Token) : Bytes := t.field 0 8

def version (t : Token) : UInt32 := t.word 8

/-- The device that the token is good for. -/
def uniqueId (t : Token) : Bytes := t.field 12 16

def make (version : UInt32) (uniqueId : Bytes) : Token :=
  ⟨(Block.zero size).setField 0 (tokenMagic ++ wordBytes version ++ fit 16 uniqueId)⟩

def parse (b : Bytes) : Except Error Token :=
  match Block.ofBytes? size b with
  | none => .error .invalid
  | some block => .ok ⟨block⟩

/-- Checks everything about a token except its signature. -/
def check (t : Token) (version : UInt32) (uniqueId : Bytes) : Except Error Unit :=
  if t.magic ≠ tokenMagic then .error .invalid
  else if t.version ≠ version then .error .invalid
  else if t.uniqueId ≠ uniqueId then .error .invalid
  else .ok ()

theorem check_eq_ok_iff {t : Token} {version : UInt32} {uniqueId : Bytes} :
    t.check version uniqueId = .ok () ↔
      t.magic = tokenMagic ∧ t.version = version ∧ t.uniqueId = uniqueId := by
  unfold check
  by_cases h1 : t.magic = tokenMagic <;> by_cases h2 : t.version = version <;>
    by_cases h3 : t.uniqueId = uniqueId <;> simp [h1, h2, h3]

end Token

end SecureBoot.Rollback
