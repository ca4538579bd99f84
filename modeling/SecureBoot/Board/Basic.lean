import SecureBoot.Step
import SecureBoot.Board.Engine
import SecureBoot.Board.FuseBank

/-!
The hardware that authentication runs on: a security engine and a fuse bank, together with the
record of every call made to them. A call may be struck by a fault, which is fixed beforehand by the
kind of the call and by how many of its kind came before; the counts are read off the record, so the
record is all the history a board has.
-/

namespace SecureBoot

/-- The calls that can fail. -/
inductive Call where
  | init | process | finalize | derive | query | read | write
deriving DecidableEq, Repr

/-- The call with the given number of its kind, counted from 0, fails with the given error. -/
structure Fault where
  call : Call
  occurrence : Nat
  error : Error
deriving DecidableEq, Repr

/-- A call as it went: what was asked and what came of it. -/
inductive Event where
  /-- An operation is set up. It gets the number by which the later calls name it. -/
  | init (algorithm : Algorithm) (setup : Setup) (result : Except Error Nat)
  /-- Data is fed to an operation, which gives back what it makes of it. -/
  | process (id : Nat) (data : Bytes) (result : Except Error Bytes)
  | finalize (id : Nat) (result : Except Error Unit)
  | close (id : Nat)
  | derive (slot : KeySlot) (result : Except Error Subkeys)
  | query (field : FuseField) (result : Except Error Nat)
  | read (field : FuseField) (size : Nat) (result : Except Error Bytes)
  | write (field : FuseField) (data : Bytes) (result : Except Error Unit)
deriving DecidableEq, Repr

namespace Event

/-- The kind of the call, if it is one that can fail. -/
def call? : Event → Option Call
  | .init .. => some .init
  | .process .. => some .process
  | .finalize .. => some .finalize
  | .close .. => none
  | .derive .. => some .derive
  | .query .. => some .query
  | .read .. => some .read
  | .write .. => some .write

/-- The operation that the call has set up. -/
def opened? : Event → Option Nat
  | .init _ _ (.ok id) => some id
  | _ => none

end Event

structure Board where
  fuses : FuseBank
  faults : List Fault
  /-- Every call so far, in order. -/
  trace : List Event
deriving DecidableEq, Repr

namespace Board

variable {α : Type}

/-- A board that has not been used yet. -/
def fresh (fuses : FuseBank) (faults : List Fault) : Board := ⟨fuses, faults, []⟩

/-- How many calls of a kind have been made. -/
def count (b : Board) (call : Call) : Nat := b.trace.countP fun e => e.call? = some call

/-- The number for the next operation that is set up. -/
def nextId (b : Board) : Nat := b.trace.countP fun e => e.opened?.isSome

/-- The error with which the next call of a kind is struck. -/
def fault? (b : Board) (call : Call) : Option Error :=
  (b.faults.find? fun f => f.call = call ∧ f.occurrence = b.count call).map (·.error)

def record (b : Board) (e : Event) : Board := { b with trace := b.trace ++ [e] }

/-- What comes of the next call of a kind: a fault, or else its answer. -/
def result (b : Board) (call : Call) (answer : Except Error α) : Except Error α :=
  match b.fault? call with
  | some e => .error e
  | none => answer

/-- Makes a call and puts it on record. -/
def perform (call : Call) (answer : Board → Except Error α) (event : Except Error α → Event) :
    Step Board α := do
  let b ← get
  let r := b.result call (answer b)
  set (b.record (event r))
  Step.ofExcept r

theorem run_perform (call : Call) (answer : Board → Except Error α)
    (event : Except Error α → Event) (b : Board) :
    (perform call answer event).run b =
      match b.result call (answer b) with
      | .ok a => .ok a (b.record (event (.ok a)))
      | .error e => .error e (b.record (event (.error e))) := by
  unfold perform
  simp only [EStateM.run_bind, EStateM.run_get, EStateM.run_set]
  cases b.result call (answer b) <;> rfl

/-! ### The engine -/

/-- Sets up an operation. Public keys do not decrypt. -/
def start (algorithm : Algorithm) (setup : Setup) : Step Board Context := do
  let id ← perform .init
    (fun b => match algorithm, setup.key with
      | .aesCbcDecrypt, .oem _ | .aesCbcDecrypt, .nvidia => .error .invalid
      | _, _ => .ok b.nextId)
    (.init algorithm setup)
  return .start id algorithm setup

/-- Feeds data to an operation. -/
def process (c : Context) (data : Bytes) : Step Board (Context × Bytes) :=
  perform .process (fun _ => c.feed data) fun r => .process c.id data (r.map (·.2))

/-- Asks an operation for its verdict. -/
def finalize (c : Context) : Step Board Unit :=
  perform .finalize (fun _ => c.verdict) (.finalize c.id)

def close (b : Board) (c : Context) : Board := b.record (.close c.id)

def closeAll (b : Board) (contexts : List Context) : Board := contexts.foldl close b

def deriveSubkeys (slot : KeySlot) : Step Board Subkeys :=
  perform .derive (fun _ => .ok (Subkeys.ofSlot slot)) (.derive slot)

/-! ### The fuses -/

def query (field : FuseField) : Step Board Nat :=
  perform .query (·.fuses.size field) (.query field)

def read (field : FuseField) (size : Nat) : Step Board Bytes :=
  perform .read (·.fuses.read field size) (.read field size)

def write (field : FuseField) (data : Bytes) : Step Board Unit := do
  let fuses ← perform .write (·.fuses.write field data)
    fun r => .write field data (r.map fun _ => ())
  modify fun b => { b with fuses := fuses }

@[simp] theorem trace_record (b : Board) (e : Event) : (b.record e).trace = b.trace ++ [e] := rfl

@[simp] theorem trace_closeAll (b : Board) (contexts : List Context) :
    (b.closeAll contexts).trace = b.trace ++ contexts.map fun c => .close c.id := by
  induction contexts generalizing b with
  | nil => simp [closeAll]
  | cons c rest ih =>
    simp only [closeAll, List.foldl_cons] at ih ⊢
    rw [ih]
    simp [close]

end Board

end SecureBoot
