import SecureBoot.Authenticator
import SecureBoot.Session.History

/-!
Boot flows: what may be asked of an authenticator over a boot, in any order, and what it answers.
The fuses may be replaced along the way, which no boot does but which tells what an authenticator
still relies on them for. A flow that halts goes no further.
-/

namespace SecureBoot.Authenticator

inductive Request where
  | checkRollback (type : BinaryType) (level : UInt8)
  | enforceRollback
  | bypassRollback (image : Bytes)
  | clearKeyCache
  | replaceFuses (fuses : FuseBank)
  | hardwareLevel
  /-- A session from its opening to its end, with what is asked of it in between. -/
  | session (type : BinaryType) (dest : Bytes) (requests : List Session.Request)
deriving DecidableEq, Repr

/-- A session that has been opened and ended. -/
structure Visit where
  opened : Session
  /-- What it answered, each answer with the session as it was then. -/
  transcript : List (Session.Answer × Session)
deriving DecidableEq, Repr

/-- The session as it was when it ended. -/
def Visit.last (v : Visit) : Session := (v.transcript.getLast?.map Prod.snd).getD v.opened

inductive Answer where
  | checkRollback (result : Except Error Unit)
  | enforceRollback (result : Except Error Rollback.Enforcement)
  | bypassRollback (result : Except Error Unit)
  | clearKeyCache
  | replaceFuses
  | hardwareLevel (result : Except Error UInt8)
  | session (result : Except Error Visit)
deriving DecidableEq, Repr

/-- Whether the boot ends with this answer. -/
def Answer.halts : Answer → Bool
  | .enforceRollback (.ok .halt) => true
  | _ => false

/-- Opens a session, asks it what is to be asked and ends it. -/
def visit (type : BinaryType) (dest : Bytes) (requests : List Session.Request) :
    Step Authenticator Visit := do
  let s ← openSession type dest
  let v : Visit := ⟨s, s.transcript requests⟩
  modify (endSession v.last)
  return v

/-- What an authenticator answers to a request, and what becomes of it. -/
def answer (a : Authenticator) : Request → Answer × Authenticator
  | .checkRollback type level => (.checkRollback (a.checkRollback type level), a)
  | .enforceRollback => Prod.map .enforceRollback id (Authenticator.enforceRollback.exec a)
  | .bypassRollback image => Prod.map .bypassRollback id ((Authenticator.bypassRollback image).exec a)
  | .clearKeyCache => (.clearKeyCache, a.clearKeyCache)
  | .replaceFuses fuses => (.replaceFuses, a.replaceFuses fuses)
  | .hardwareLevel => Prod.map .hardwareLevel id (Authenticator.hardwareLevel.exec a)
  | .session type dest requests => Prod.map .session id ((visit type dest requests).exec a)

/-- A flow: the answers to the requests, each with the authenticator as it was then, up to the last
request or to the one that halts. -/
def flow (a : Authenticator) : List Request → List (Answer × Authenticator)
  | [] => []
  | r :: rest =>
    let (answer, next) := a.answer r
    (answer, next) :: if answer.halts then [] else flow next rest

end SecureBoot.Authenticator
