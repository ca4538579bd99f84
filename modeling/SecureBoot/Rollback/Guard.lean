import SecureBoot.Board.FuseReading
import SecureBoot.Rollback.Level
import SecureBoot.Rollback.Metadata

/-!
The guard against rollback. Boot metadata carries the level that the present firmware was built for.
If the hardware counter is past it, somebody is trying to boot old firmware and the boot halts; if
the counter is behind, it is moved forward, once. Single binaries are held against floors besides.
-/

namespace SecureBoot.Rollback

structure Guard where
  state : State
  /-- Whether the counter has been asked to move forward during this boot. -/
  burned : Bool

/-- What becomes of a boot. -/
inductive Enforcement where
  | proceed
  /-- The end of the line: nothing is answered and nothing more is done. -/
  | halt
deriving DecidableEq, Repr

namespace Guard

def ofState (state : State) : Guard := ⟨state, false⟩

def disable (g : Guard) : Guard := { g with state := { g.state with enabled := false } }

/-- The counter that the guard goes by. -/
def counter (g : Guard) : FuseField := .rollbackCounter g.state.fuseIndex

/-- Holds the level that a binary declares against the floor of its type. -/
def check (g : Guard) (type : BinaryType) (level : UInt8) : Except Error Unit :=
  if g.state.enabled ∧ level < g.state.floor type then .error .invalid else .ok ()

/-- The level that the hardware counter is at. -/
def hardwareLevel (g : Guard) : Step Board UInt8 :=
  levelOfFuse <$> Board.readWord g.counter

/-- Burns the level of the metadata into the counter, if it fits. A burn that fails is of no
consequence: the firmware can still be booted and the next boot tries again. -/
def burn (g : Guard) : Step Board Unit := do
  let size ← Board.query g.counter
  if g.state.level.toNat ≤ 8 * size then
    Step.ignoring (Board.write g.counter (burnData g.state.level size))

/-- A step on the board that the guard watches. -/
def onBoard {α : Type} (m : Step Board α) : Step (Guard × Board) α :=
  Step.focus Prod.snd (fun b s => (s.1, b)) m

/-- Holds the level of the metadata against the hardware counter, and moves the counter forward if
it is behind and has not been asked to before. -/
def enforce : Step (Guard × Board) Enforcement := do
  let s ← get
  if s.1.state.enabled then
    let hardware ← onBoard s.1.hardwareLevel
    if s.1.state.level < hardware then
      return .halt
    else if hardware < s.1.state.level ∧ ¬ s.1.burned then
      modify fun s => ({ s.1 with burned := true }, s.2)
      onBoard s.1.burn
      return .proceed
    else
      return .proceed
  else
    return .proceed

end Guard

end SecureBoot.Rollback
