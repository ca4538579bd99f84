import SecureBoot.Error

/-!
Steps over a state that may fail. A step that fails still leaves the state it had reached, because
what has been written to a destination, put on a record or burned into a fuse stays there. Each
combinator comes with a lemma that says what a run of it does.
-/

namespace SecureBoot

/-- A computation over the state `σ` that ends with a value or an error, and with a state either
way. -/
abbrev Step (σ α : Type) := EStateM Error σ α

namespace Step

variable {σ τ α : Type}

/-- A run: its outcome, and the state it leaves whatever the outcome. -/
def exec (m : Step σ α) (s : σ) : Except Error α × σ :=
  match m.run s with
  | .ok a t => (.ok a, t)
  | .error e t => (.error e, t)

def outcome (m : Step σ α) (s : σ) : Except Error α := (m.exec s).1

def final (m : Step σ α) (s : σ) : σ := (m.exec s).2

/-- The step with a given outcome that leaves the state alone. -/
def ofExcept : Except Error α → Step σ α
  | .ok a => pure a
  | .error e => throw e

/-- Goes on only if `p` holds. -/
def require (p : Prop) [Decidable p] (e : Error) : Step σ Unit :=
  if p then pure () else throw e

/-- Runs a step on a part of the state and puts the part back, also when the step fails. -/
def focus (part : σ → τ) (put : τ → σ → σ) (m : Step τ α) : Step σ α := fun s =>
  match m.run (part s) with
  | .ok a t => .ok a (put t s)
  | .error e t => .error e (put t s)

/-- Adjusts the state that a failing step leaves, and fails with the same error. -/
def onError (repair : σ → σ) (m : Step σ α) : Step σ α := fun s =>
  match m.run s with
  | .ok a t => .ok a t
  | .error e t => .error e (repair t)

/-- Adjusts the state that a step leaves, whatever its outcome. -/
def ensuring (close : σ → σ) (m : Step σ α) : Step σ α := fun s =>
  match m.run s with
  | .ok a t => .ok a (close t)
  | .error e t => .error e (close t)

/-- Goes on whatever the outcome of a step. -/
def ignoring (m : Step σ α) : Step σ Unit := fun s => .ok () (m.final s)

/-! ### What a run does -/

@[simp] theorem run_ofExcept_ok (a : α) (s : σ) :
    EStateM.run (ofExcept (.ok a)) s = .ok a s := rfl

@[simp] theorem run_ofExcept_error (e : Error) (s : σ) :
    EStateM.run (ofExcept (.error e) : Step σ α) s = .error e s := rfl

theorem run_require (p : Prop) [Decidable p] (e : Error) (s : σ) :
    EStateM.run (require p e) s = if p then .ok () s else .error e s := by
  unfold require
  split <;> rfl

theorem run_focus (part : σ → τ) (put : τ → σ → σ) (m : Step τ α) (s : σ) :
    EStateM.run (focus part put m) s =
      match m.run (part s) with
      | .ok a t => .ok a (put t s)
      | .error e t => .error e (put t s) := rfl

theorem run_onError (repair : σ → σ) (m : Step σ α) (s : σ) :
    EStateM.run (onError repair m) s =
      match m.run s with
      | .ok a t => .ok a t
      | .error e t => .error e (repair t) := rfl

theorem run_ensuring (close : σ → σ) (m : Step σ α) (s : σ) :
    EStateM.run (ensuring close m) s =
      match m.run s with
      | .ok a t => .ok a (close t)
      | .error e t => .error e (close t) := rfl

@[simp] theorem run_ignoring (m : Step σ α) (s : σ) :
    EStateM.run (ignoring m) s = .ok () (m.final s) := rfl

end Step

end SecureBoot
