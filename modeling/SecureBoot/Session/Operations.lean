import SecureBoot.Session.Chain

/-!
The operations of one header: setting them up, running data through them in order, and asking for
their verdicts. Setting up fails as a whole: what has been opened by then is closed again.
-/

namespace SecureBoot

/-- What an operation is set up with for a header, its sub-keys aside. -/
def Header.setup (h : Header) (algorithm : Algorithm) (key : Key) : Setup where
  key := key
  regionSize := if algorithm.verifies then h.coveredSize else h.length
  expected :=
    match algorithm with
    | .aesCbcDecrypt => []
    | .aesCmac => h.cmac
    | .rsaPss => h.rsaSignature
    | .ecdsa => h.ecdsaSignature
  iv := h.iv
  subkeys := none

namespace Platform

/-- The sub-keys that an operation needs besides its key: only a CMAC needs any. -/
def subkeysFor (algorithm : Algorithm) (key : Key) : Step Platform (Option Subkeys) :=
  match algorithm, key with
  | .aesCmac, .slot slot => some <$> subkeys slot
  | _, _ => pure none

/-- Sets up one operation. Its key is chosen first, then it gets its sub-keys, and only then is the
engine asked for the operation. -/
def openContext (mode : CryptoMode) (keys : KeyTable) (h : Header) (algorithm : Algorithm) :
    Step Platform Context := do
  let key ← Step.ofExcept (mode.key keys h.keyIndex algorithm)
  let subkeys ← subkeysFor algorithm key
  onBoard (Board.start algorithm { h.setup algorithm key with subkeys := subkeys })

/-- Sets up operations in order. If one fails, those before it are closed. -/
def openContexts (mode : CryptoMode) (keys : KeyTable) (h : Header) :
    List Algorithm → Step Platform (List Context)
  | [] => pure []
  | algorithm :: rest => do
    let c ← openContext mode keys h algorithm
    let cs ← Step.onError (closeAll [c]) (openContexts mode keys h rest)
    return c :: cs

end Platform

namespace Board

/-- Runs a signed section through one operation, if it checks a signature. -/
def feedVerifier (signed : Bytes) (c : Context) : Step Board Context :=
  if c.algorithm.verifies then Prod.fst <$> process c signed else pure c

/-- Runs the signed section of a header through its operations. -/
def feedSection (signed : Bytes) : List Context → Step Board (List Context)
  | [] => pure []
  | c :: rest => do
    let c ← feedVerifier signed c
    let rest ← feedSection signed rest
    return c :: rest

/-- Asks the operations for their verdicts, in order, up to the first that rejects. Whatever the
engine says then, the binary is not authentic. -/
def finalizeAll : List Context → Step Board Unit
  | [] => pure ()
  | c :: rest => fun b =>
    match (finalize c).run b with
    | .ok _ b => (finalizeAll rest).run b
    | .error _ b => .error .verifyFailed b

end Board

/-- A board at work on a piece of a destination. -/
structure Bench where
  board : Board
  piece : Bytes
deriving DecidableEq, Repr

/-- Runs the piece through operations in order, each one working on what the one before it has made
of it. If one fails, the piece stays as the ones before have left it. -/
def Bench.run : List Context → Step Bench (List Context)
  | [] => pure []
  | c :: rest => do
    let w ← get
    let (c, piece) ← Step.focus Bench.board (fun b w => { w with board := b })
      (Board.process c w.piece)
    modify fun w => { w with piece := piece }
    let rest ← run rest
    return c :: rest

end SecureBoot
