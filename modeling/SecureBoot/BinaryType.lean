/-!
The types of binary that a boot flow authenticates. Each has a policy, key slots and a rollback
floor of its own (`Chip.policy`).
-/

namespace SecureBoot

inductive BinaryType where
  | mb1 | mb1Bct | mts | mb2 | spe | bpmp | tos | cpubl | kernel | kernelDtb | rollbackToken
deriving DecidableEq, Repr

namespace BinaryType

/-- Every type, in the order of their numbers. -/
def all : List BinaryType :=
  [.mb1, .mb1Bct, .mts, .mb2, .spe, .bpmp, .tos, .cpubl, .kernel, .kernelDtb, .rollbackToken]

/-- The number under which boot metadata keeps what belongs to the type. -/
def number : BinaryType → Nat
  | .mb1 => 0
  | .mb1Bct => 1
  | .mts => 2
  | .mb2 => 3
  | .spe => 4
  | .bpmp => 5
  | .tos => 6
  | .cpubl => 7
  | .kernel => 8
  | .kernelDtb => 9
  | .rollbackToken => 10

def ofNumber? (n : Int) : Option BinaryType :=
  all.find? fun t => (t.number : Int) = n

@[simp] theorem ofNumber?_number (t : BinaryType) : ofNumber? t.number = some t := by
  cases t <;> rfl

theorem ofNumber?_eq_some_iff {n : Int} {t : BinaryType} :
    ofNumber? n = some t ↔ n = t.number := by
  constructor
  · intro h
    simpa [eq_comm] using List.find?_some h
  · rintro rfl
    simp

end BinaryType

end SecureBoot
