import SecureBoot.Bytes.Basic
import SecureBoot.Proofs.Ensures

/-!
Steps that look at every bound. A `Checked` step is a step that may find a bound broken, and then has
no end at all: a subtraction below zero, a sum that does not fit a machine word, an index or a slice
out of range.

`Checked.Agrees` says that a checked step breaks no bound and comes to the same end as a step that
takes all bounds for granted. Where the bounds hold the checks are nothing (`bound_of`, `sub_of_le`,
`add_of_lt`, `inRange_of`), and `Agrees.bind` puts steps that agree together.
-/

namespace SecureBoot

/-- A step that has no end if it breaks a bound. -/
abbrev Checked (σ α : Type) := ExceptT Error (StateT σ Option) α

namespace Checked

variable {σ α : Type}

/-- A run, if it breaks no bound: its outcome, and the state it leaves. -/
def exec (m : Checked σ α) (s : σ) : Option (Except Error α × σ) := m.run.run s

/-- A step in which there is nothing to check. -/
def lift (m : Step σ α) : Checked σ α := ExceptT.mk fun s => some (m.exec s)

/-- A step that is never refused. -/
def sure (m : Step σ α) : Checked σ α :=
  ExceptT.mk fun s =>
    match m.run s with
    | .ok a t => some (.ok a, t)
    | .error _ _ => none

def broken : Checked σ α := ExceptT.mk fun _ => none

/-- A bound that has to hold. -/
def bound (p : Prop) [Decidable p] : Checked σ Unit := if p then pure () else broken

def sub (a b : Nat) : Checked σ Nat := do
  bound (b ≤ a)
  return a - b

/-- The sums that fit a machine word. -/
abbrev wordLimit : Nat := 18446744073709551616

def add (a b : Nat) : Checked σ Nat := do
  bound (a + b < wordLimit)
  return a + b

/-- The bytes from `start` up to `stop` are there. -/
def inRange (b : Bytes) (start stop : Nat) : Checked σ Unit := bound (start ≤ stop ∧ stop ≤ b.length)

/-- Adjusts the state that a run leaves. -/
def adjusting (adjust : Except Error α × σ → σ) (m : Checked σ α) : Checked σ α :=
  ExceptT.mk fun s => (m.exec s).map fun r => (r.1, adjust r)

def onError (repair : σ → σ) : Checked σ α → Checked σ α :=
  adjusting fun
    | (.ok _, s) => s
    | (.error _, s) => repair s

def ensuring (close : σ → σ) : Checked σ α → Checked σ α := adjusting fun r => close r.2

/-- Runs a step on a part of the state and puts the part back. -/
def focus {τ : Type} (part : σ → τ) (put : τ → σ → σ) (m : Checked τ α) : Checked σ α :=
  ExceptT.mk fun s => (m.exec (part s)).map fun r => (r.1, put r.2 s)

/-! ### Where the bounds hold -/

open Step

variable {β : Type} {s s' : σ}

theorem exec_bind (m : Checked σ β) (f : β → Checked σ α) (s : σ) :
    (m >>= f).exec s =
      match m.exec s with
      | none => none
      | some (.ok b, t) => (f b).exec t
      | some (.error e, t) => some (.error e, t) := by
  change (m.run.run s).bind _ = _
  unfold exec
  rcases m.run.run s with _ | ⟨_ | _, _⟩ <;> rfl

theorem exec_get_bind (f : σ → Checked σ α) (s : σ) : (get >>= f).exec s = (f s).exec s := by
  rw [exec_bind]
  rfl

theorem bound_of {p : Prop} [Decidable p] (h : p) : (bound p : Checked σ Unit) = pure () := if_pos h

theorem sub_of_le {a b : Nat} (h : b ≤ a) : (sub a b : Checked σ Nat) = pure (a - b) := by
  rw [sub, bound_of h, pure_bind]

theorem add_of_lt {a b : Nat} (h : a + b < wordLimit) : (add a b : Checked σ Nat) = pure (a + b) := by
  rw [add, bound_of h, pure_bind]

theorem inRange_of {b : Bytes} {start stop : Nat} (h : start ≤ stop) (h' : stop ≤ b.length) :
    (inRange b start stop : Checked σ Unit) = pure () := bound_of ⟨h, h'⟩

/-- Run from `s'`, the checked step breaks no bound, and it comes to the end that the step comes to
from `s`. -/
def Agrees (m' : Checked σ α) (s' : σ) (m : Step σ α) (s : σ) : Prop := m'.exec s' = some (m.exec s)

section Rules

variable {m' : Checked σ α} {m : Step σ α}

theorem agrees_lift (m : Step σ α) (s : σ) : Agrees (lift m) s m s := rfl

@[simp] theorem agrees_pure {a b : α} : Agrees (pure a) s' (pure b) s ↔ a = b ∧ s' = s := by
  change some (Except.ok a, s') = some (Except.ok b, s) ↔ _
  simp

theorem agrees_sure {bad : Error → σ → Prop} {good : α → σ → Prop} (h : Ensures m s good bad)
    (hbad : ∀ e t, ¬ bad e t) : Agrees (sure m) s m s := by
  unfold Ensures at h
  change (match m.run s with | .ok a t => some (.ok a, t) | .error _ _ => none) = some (m.exec s)
  unfold Step.exec
  cases hr : m.run s with
  | ok a t => rfl
  | error e t =>
    rw [hr] at h
    exact absurd h (hbad e t)

/-- Steps that agree, followed by steps that agree wherever the first ones may lead. -/
theorem Agrees.bind {m' : Checked σ β} {m : Step σ β} {f' : β → Checked σ α} {f : β → Step σ α}
    {good : β → σ → Prop} {bad : Error → σ → Prop} (hm : Agrees m' s' m s)
    (h : Ensures m s good bad) (hf : ∀ b t, good b t → Agrees (f' b) t (f b) t) :
    Agrees (m' >>= f') s' (m >>= f) s := by
  unfold Agrees at hm ⊢
  rw [exec_bind, hm]
  unfold Ensures at h
  unfold Step.exec
  rw [EStateM.run_bind]
  cases hr : m.run s with
  | ok b t =>
    rw [hr] at h
    exact hf b t h
  | error e t => rfl

@[simp] theorem agrees_get_left {f : σ → Checked σ α} :
    Agrees (get >>= f) s' m s ↔ Agrees (f s') s' m s := Iff.rfl

@[simp] theorem agrees_get_right {f : σ → Step σ α} :
    Agrees m' s' (get >>= f) s ↔ Agrees m' s' (f s) s := Iff.rfl

@[simp] theorem agrees_set_left {t : σ} {f : PUnit → Checked σ α} :
    Agrees (set t >>= f) s' m s ↔ Agrees (f ⟨⟩) t m s := Iff.rfl

theorem Agrees.map {m' : Checked σ β} {m : Step σ β} {f : β → α} (h : Agrees m' s' m s) :
    Agrees (f <$> m') s' (f <$> m) s := by
  rw [map_eq_pure_bind, map_eq_pure_bind]
  exact h.bind (ensures_exec m s) fun _ _ _ => agrees_pure.mpr ⟨rfl, rfl⟩

theorem Agrees.focus {τ : Type} {part : σ → τ} {put : τ → σ → σ} {m' : Checked τ α} {m : Step τ α}
    (h : Agrees m' (part s) m (part s)) :
    Agrees (Checked.focus part put m') s (Step.focus part put m) s := by
  unfold Agrees at h ⊢
  change (m'.exec (part s)).map _ = some (Step.exec (Step.focus part put m) s)
  rw [h]
  unfold Step.exec
  rw [run_focus]
  cases m.run (part s) <;> rfl

theorem Agrees.onError {repair : σ → σ} (h : Agrees m' s' m s) :
    Agrees (Checked.onError repair m') s' (Step.onError repair m) s := by
  unfold Agrees at h ⊢
  change (m'.exec s').map _ = some (Step.exec (Step.onError repair m) s)
  rw [h]
  unfold Step.exec
  rw [run_onError]
  cases m.run s <;> rfl

theorem Agrees.ensuring {close : σ → σ} (h : Agrees m' s' m s) :
    Agrees (Checked.ensuring close m') s' (Step.ensuring close m) s := by
  unfold Agrees at h ⊢
  change (m'.exec s').map _ = some (Step.exec (Step.ensuring close m) s)
  rw [h]
  unfold Step.exec
  rw [run_ensuring]
  cases m.run s <;> rfl

end Rules

/-! ### Steps in which there is nothing to check -/

/-- Holding a result against a step that leaves the state alone. -/
theorem agrees_ofExcept {r : Except Error β} {f' : β → Checked σ α} {f : β → Step σ α}
    (hf : ∀ b, r = .ok b → Agrees (f' b) s (f b) s) :
    Agrees (lift (Step.ofExcept r) >>= f') s (Step.ofExcept r >>= f) s := by
  cases r with
  | ok b => exact hf b rfl
  | error e => rfl

theorem agrees_require {p : Prop} [Decidable p] {e : Error} {f' : Unit → Checked σ α}
    {f : Unit → Step σ α} (hf : p → Agrees (f' ()) s (f ()) s) :
    Agrees (lift (Step.require p e) >>= f') s (Step.require p e >>= f) s := by
  unfold Step.require
  split
  · exact hf ‹_›
  · rfl

theorem lift_bind (m : Step σ β) (f : β → Step σ α) :
    lift (m >>= f) = lift m >>= fun b => lift (f b) := by
  funext s
  change some (Step.exec (m >>= f) s) = (lift m >>= fun b => lift (f b)).exec s
  rw [exec_bind]
  change _ = match some (Step.exec m s) with
    | none => none
    | some (.ok b, t) => some (Step.exec (f b) t)
    | some (.error e, t) => some (.error e, t)
  unfold Step.exec
  rw [EStateM.run_bind]
  cases m.run s <;> rfl

theorem lift_get : lift (get : Step σ σ) = get := rfl

theorem lift_pure (a : α) : lift (pure a : Step σ α) = pure a := rfl

end Checked

end SecureBoot
