/-!
The causes for which a request is refused. A rollback violation is not among them: it is never
reported back to the caller but stops the boot (`Rollback.Enforcement.halt`).
-/

namespace SecureBoot

inductive Error where
  /-- A signature header, or a fuse field, is missing where one is required. -/
  | notFound
  /-- A malformed header, a nested size that does not fit, or a bad parameter. -/
  | invalid
  /-- A declared size exceeds the capacity of the destination. -/
  | overflow
  /-- A signature or a claimed mode does not match. -/
  | verifyFailed
  /-- A mode, or a combination of mode bits, that nobody supports. -/
  | notSupported
  /-- The security engine or the fuse controller reports a fault of its own. -/
  | hardware
deriving DecidableEq, Repr

def Error.message : Error → String
  | .notFound => "no signature header found"
  | .invalid => "invalid header or parameter"
  | .overflow => "declared size exceeds capacity"
  | .verifyFailed => "verification failed"
  | .notSupported => "mode not supported"
  | .hardware => "hardware fault"

instance decidableEqExcept {ε α : Type} [DecidableEq ε] [DecidableEq α] :
    DecidableEq (Except ε α)
  | .ok a, .ok b => decidable_of_iff (a = b) (by simp)
  | .error a, .error b => decidable_of_iff (a = b) (by simp)
  | .ok _, .error _ => isFalse (by simp)
  | .error _, .ok _ => isFalse (by simp)

end SecureBoot
