import SecureBoot.Board.Basic

/-!
The CMAC sub-keys in use. Deriving them costs a call of the engine and a boot flow goes back and
forth between a few key slots, so those of the two slots asked for last are kept.
-/

namespace SecureBoot

structure SubkeyCache where
  /-- Slots with their sub-keys, the one asked for last in front. -/
  entries : List (KeySlot × Subkeys)
deriving DecidableEq, Repr

namespace SubkeyCache

def capacity : Nat := 2

def empty : SubkeyCache := ⟨[]⟩

def get? (cache : SubkeyCache) (slot : KeySlot) : Option Subkeys := cache.entries.lookup slot

def contains (cache : SubkeyCache) (slot : KeySlot) : Bool := (cache.get? slot).isSome

/-- Puts an entry in front. Of the others those asked for last are kept. -/
def touch (cache : SubkeyCache) (slot : KeySlot) (subkeys : Subkeys) : SubkeyCache :=
  ⟨((slot, subkeys) :: cache.entries.filter (·.1 ≠ slot)).take capacity⟩

end SubkeyCache

/-- The hardware, with the sub-keys that have been got from it. -/
structure Platform where
  board : Board
  cache : SubkeyCache
deriving DecidableEq, Repr

namespace Platform

variable {α : Type}

/-- A step of the board alone. -/
def onBoard (m : Step Board α) : Step Platform α :=
  Step.focus Platform.board (fun b p => { p with board := b }) m

/-- The sub-keys of a slot, from the cache if it holds them and from the engine if not. -/
def findSubkeys (slot : KeySlot) : Step Platform Subkeys := do
  let p ← get
  match p.cache.get? slot with
  | some keys => return keys
  | none => onBoard (Board.deriveSubkeys slot)

/-- Uses the sub-keys of a slot, which puts them in front in the cache. A derivation that fails
leaves the cache alone. -/
def subkeys (slot : KeySlot) : Step Platform Subkeys := do
  let keys ← findSubkeys slot
  modify fun p => { p with cache := p.cache.touch slot keys }
  return keys

def closeAll (contexts : List Context) (p : Platform) : Platform :=
  { p with board := p.board.closeAll contexts }

end Platform

end SecureBoot
