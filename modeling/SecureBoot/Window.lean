import SecureBoot.Step

/-!
The cursors over a destination. Bytes are taken up raw, which moves `filled`, and are released once
every operation that covers them has run, which moves `safe`; only what is before `safe` counts as
output.
-/

namespace SecureBoot

/-- A stretch of a destination, from `start` up to but not including `stop`. -/
structure Extent where
  start : Nat
  stop : Nat
deriving DecidableEq, Repr

structure Window where
  capacity : Nat
  filled : Nat
  safe : Nat
deriving DecidableEq, Repr

namespace Window

/-- A window over nothing is refused. -/
def ofCapacity (capacity : Nat) : Except Error Window :=
  if capacity = 0 then .error .invalid else .ok ⟨capacity, 0, 0⟩

/-- Takes up the next `n` raw bytes and tells where they go. -/
def fill (n : Nat) : Step Window Extent := do
  let w ← get
  Step.require (w.filled + n ≤ w.capacity) .overflow
  set { w with filled := w.filled + n }
  return ⟨w.filled, w.filled + n⟩

/-- Moves the safe cursor up to a position. -/
def commit (position : Nat) : Step Window Unit := do
  let w ← get
  Step.require (w.safe ≤ position ∧ position ≤ w.filled) .invalid
  set { w with safe := position }

theorem run_fill (n : Nat) (w : Window) :
    (fill n).run w =
      if w.filled + n ≤ w.capacity then
        .ok ⟨w.filled, w.filled + n⟩ { w with filled := w.filled + n }
      else .error .overflow w := by
  simp only [fill, EStateM.run_bind, EStateM.run_get, Step.run_require]
  by_cases h : w.filled + n ≤ w.capacity
  · simp only [if_pos h]
    rfl
  · simp only [if_neg h]

theorem run_commit (position : Nat) (w : Window) :
    (commit position).run w =
      if w.safe ≤ position ∧ position ≤ w.filled then .ok () { w with safe := position }
      else .error .invalid w := by
  simp only [commit, EStateM.run_bind, EStateM.run_get, Step.run_require]
  by_cases h : w.safe ≤ position ∧ position ≤ w.filled
  · simp only [if_pos h]
    rfl
  · simp only [if_neg h]

end Window

end SecureBoot
