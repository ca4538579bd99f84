import SecureBoot.Session.Finalize
import SecureBoot.Session.Push

/-!
Histories of a session: what may be asked of it, in any order and also after an error, and what it
answers.
-/

namespace SecureBoot.Session

inductive Request where
  | push (chunk : Bytes) (first : Bool)
  | requireNvidia (policy : NvidiaPolicy)
  | finalize
deriving DecidableEq, Repr

inductive Answer where
  | push (result : Except Error Unit)
  | requireNvidia
  | finalize (result : Except Error Verified)
deriving DecidableEq, Repr

/-- What a session answers to a request, and what becomes of it. -/
def answer (s : Session) : Request → Answer × Session
  | .push chunk first => Prod.map .push id ((push chunk first).exec s)
  | .requireNvidia policy => (.requireNvidia, s.requireNvidia policy)
  | .finalize => Prod.map .finalize id (Session.finalize.exec s)

/-- The session after some requests. -/
def after (s : Session) (requests : List Request) : Session :=
  requests.foldl (fun s r => (s.answer r).2) s

/-- The answers to some requests, each with the session as the request has left it. -/
def transcript (s : Session) : List Request → List (Answer × Session)
  | [] => []
  | r :: rest =>
    let (answer, next) := s.answer r
    (answer, next) :: transcript next rest

@[simp] theorem after_nil (s : Session) : s.after [] = s := rfl

@[simp] theorem after_cons (s : Session) (r : Request) (rest : List Request) :
    s.after (r :: rest) = (s.answer r).2.after rest := rfl

end SecureBoot.Session
