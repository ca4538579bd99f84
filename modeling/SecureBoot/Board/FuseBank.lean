import SecureBoot.Error
import SecureBoot.Bytes.Basic

/-!
The fuses of a part. They can be programmed once: a write can only ever turn bits on, and the
rollback counters are the only fields that take one.
-/

namespace SecureBoot

inductive FuseField where
  /-- The scheme of authentication, and whether binaries are encrypted. -/
  | bootSecurityInfo
  /-- The identity of the device. -/
  | uniqueId
  /-- A monotonic counter. A part has several, and boot metadata says which one is used. -/
  | rollbackCounter (index : UInt8)
deriving DecidableEq, Repr

structure FuseBank where
  /-- Whether the part has been moved into secure mode. -/
  secure : Bool
  info : Option Bytes
  uniqueId : Option Bytes
  counters : List Bytes
deriving DecidableEq, Repr

namespace FuseBank

/-- A part out of the factory on which no field exists. -/
def blank : FuseBank := ⟨false, none, none, []⟩

def field? (bank : FuseBank) : FuseField → Option Bytes
  | .bootSecurityInfo => bank.info
  | .uniqueId => bank.uniqueId
  | .rollbackCounter index => bank.counters[index.toNat]?

def size (bank : FuseBank) (field : FuseField) : Except Error Nat :=
  match bank.field? field with
  | none => .error .notFound
  | some value => .ok value.length

/-- Reads a field into a buffer, which has to have its size. -/
def read (bank : FuseBank) (field : FuseField) (size : Nat) : Except Error Bytes :=
  match bank.field? field with
  | none => .error .notFound
  | some value => if value.length = size then .ok value else .error .invalid

/-- A field once `data` has been burned into it. -/
def burned (value data : Bytes) : Bytes := value.zipWith (· ||| ·) data

/-- Burns data of the size of the field into a counter. -/
def write (bank : FuseBank) (field : FuseField) (data : Bytes) : Except Error FuseBank :=
  match field with
  | .rollbackCounter index =>
    match bank.counters[index.toNat]? with
    | none => .error .notFound
    | some value =>
      if value.length = data.length then
        .ok { bank with counters := bank.counters.set index.toNat (burned value data) }
      else .error .invalid
  | _ => .error .notSupported

end FuseBank

end SecureBoot
