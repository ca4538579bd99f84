import SecureBoot.Step

/-!
What a run of a step ends with: `Step.Ensures m s good bad` says that from the state `s` a run of
`m` that succeeds meets `good` and one that fails meets `bad`. There is one rule for each way of
putting steps together, all of them equivalences, so that rewriting with them takes a step apart
into the claims about its parts. `Ensures.outcome_ok` and `Ensures.outcome_error` read a result
back off.
-/

namespace SecureBoot.Step

variable {σ τ α β : Type}

/-- A run from `s` ends with `good` if it succeeds, and with `bad` if it fails. -/
def Ensures (m : Step σ α) (s : σ) (good : α → σ → Prop) (bad : Error → σ → Prop) : Prop :=
  match m.run s with
  | .ok a t => good a t
  | .error e t => bad e t

theorem Ensures.mono {m : Step σ α} {s : σ} {good good' : α → σ → Prop}
    {bad bad' : Error → σ → Prop} (h : Ensures m s good bad)
    (hgood : ∀ a t, good a t → good' a t) (hbad : ∀ e t, bad e t → bad' e t) :
    Ensures m s good' bad' := by
  unfold Ensures at h ⊢
  split at h
  · exact hgood _ _ h
  · exact hbad _ _ h

/-- Two things that are known of a run, both at once. -/
theorem Ensures.and {m : Step σ α} {s : σ} {good good' : α → σ → Prop}
    {bad bad' : Error → σ → Prop} (h : Ensures m s good bad) (h' : Ensures m s good' bad') :
    Ensures m s (fun a t => good a t ∧ good' a t) (fun e t => bad e t ∧ bad' e t) := by
  unfold Ensures at h h' ⊢
  split <;> simp_all

/-! ### Reading a result off -/

section Results

variable {m : Step σ α} {s : σ} {good : α → σ → Prop} {bad : Error → σ → Prop}

theorem Ensures.outcome_ok (h : Ensures m s good bad) {a : α} (ho : m.outcome s = .ok a) :
    good a (m.final s) := by
  unfold Ensures at h
  unfold outcome exec at ho
  unfold final exec
  revert h ho
  cases m.run s with
  | ok b t =>
    intro h ho
    cases ho
    exact h
  | error e t =>
    intro _ ho
    cases ho

theorem Ensures.outcome_error (h : Ensures m s good bad) {e : Error}
    (ho : m.outcome s = .error e) : bad e (m.final s) := by
  unfold Ensures at h
  unfold outcome exec at ho
  unfold final exec
  revert h ho
  cases m.run s with
  | ok a t =>
    intro _ ho
    cases ho
  | error e' t =>
    intro h ho
    cases ho
    exact h

/-- A run ends with its outcome, in the state that it leaves. -/
theorem ensures_exec (m : Step σ α) (s : σ) :
    Ensures m s (fun a t => m.outcome s = .ok a ∧ m.final s = t)
      (fun e t => m.outcome s = .error e ∧ m.final s = t) := by
  unfold Ensures outcome final exec
  cases m.run s <;> exact ⟨rfl, rfl⟩

/-- What holds of both ends holds of the outcome together with the state that a run leaves. -/
theorem Ensures.result {p : Except Error α → σ → Prop}
    (h : Ensures m s (fun a => p (.ok a)) (fun e => p (.error e))) : p (m.outcome s) (m.final s) := by
  cases ho : m.outcome s with
  | ok a => exact h.outcome_ok ho
  | error e => exact h.outcome_error ho

/-- What holds of either end holds of the state that a run leaves. -/
theorem Ensures.final {p : σ → Prop} (h : Ensures m s (fun _ => p) (fun _ => p)) :
    p (m.final s) := by
  cases ho : m.outcome s with
  | ok a => exact h.outcome_ok ho
  | error e => exact h.outcome_error ho

/-- A run that cannot fail and of which both the value and the state are known. -/
theorem Ensures.exec_eq {a : α} {t : σ}
    (h : Ensures m s (fun a' t' => a' = a ∧ t' = t) (fun _ _ => False)) :
    m.exec s = (.ok a, t) :=
  Ensures.result (p := fun r s' => (r, s') = (.ok a, t))
    (h.mono (fun _ _ ⟨ha, ht⟩ => by rw [ha, ht]) fun _ _ hnever => hnever.elim)

/-- A run that cannot succeed and of which both the error and the state are known. -/
theorem Ensures.exec_eq_error {e : Error} {t : σ}
    (h : Ensures m s (fun _ _ => False) (fun e' t' => e' = e ∧ t' = t)) :
    m.exec s = (.error e, t) :=
  Ensures.result (p := fun r s' => (r, s') = (.error e, t))
    (h.mono (fun _ _ hnever => hnever.elim) fun _ _ ⟨he, ht⟩ => by rw [he, ht])

end Results

theorem outcome_focus (part : σ → τ) (put : τ → σ → σ) (m : Step τ α) (s : σ) :
    (focus part put m).outcome s = m.outcome (part s) := by
  unfold outcome exec
  rw [run_focus]
  cases m.run (part s) <;> rfl

theorem final_focus (part : σ → τ) (put : τ → σ → σ) (m : Step τ α) (s : σ) :
    (focus part put m).final s = put (m.final (part s)) s := by
  unfold final exec
  rw [run_focus]
  cases m.run (part s) <;> rfl

/-! ### One rule for each way of putting steps together -/

section Rules

variable {s : σ} {good : α → σ → Prop} {bad : Error → σ → Prop}

@[simp] theorem ensures_pure {a : α} : Ensures (pure a) s good bad ↔ good a s := Iff.rfl

@[simp] theorem ensures_throw {e : Error} :
    Ensures (throw e : Step σ α) s good bad ↔ bad e s := Iff.rfl

@[simp] theorem ensures_bind {m : Step σ β} {f : β → Step σ α} :
    Ensures (m >>= f) s good bad ↔ Ensures m s (fun b t => Ensures (f b) t good bad) bad := by
  unfold Ensures
  rw [EStateM.run_bind]
  cases m.run s <;> rfl

@[simp] theorem ensures_map {m : Step σ β} {f : β → α} :
    Ensures (f <$> m) s good bad ↔ Ensures m s (fun b => good (f b)) bad := by
  change (match EStateM.map f m s with | .ok a t => good a t | .error e t => bad e t) ↔
    match m s with | .ok b t => good (f b) t | .error e t => bad e t
  unfold EStateM.map
  cases m s <;> rfl

@[simp] theorem ensures_get {good : σ → σ → Prop} :
    Ensures (get : Step σ σ) s good bad ↔ good s s := Iff.rfl

@[simp] theorem ensures_set {t : σ} {good : PUnit → σ → Prop} :
    Ensures (set t : Step σ PUnit) s good bad ↔ good ⟨⟩ t := Iff.rfl

@[simp] theorem ensures_modify {f : σ → σ} {good : PUnit → σ → Prop} :
    Ensures (modify f : Step σ PUnit) s good bad ↔ good ⟨⟩ (f s) := Iff.rfl

@[simp] theorem ensures_ofExcept_ok {a : α} :
    Ensures (ofExcept (.ok a)) s good bad ↔ good a s := Iff.rfl

@[simp] theorem ensures_ofExcept_error {e : Error} :
    Ensures (ofExcept (.error e) : Step σ α) s good bad ↔ bad e s := Iff.rfl

theorem ensures_require {p : Prop} [Decidable p] {e : Error} {good : Unit → σ → Prop} :
    Ensures (require p e) s good bad ↔ (p → good () s) ∧ (¬ p → bad e s) := by
  unfold Ensures
  rw [run_require]
  by_cases h : p <;> simp [h]

@[simp] theorem ensures_focus {part : σ → τ} {put : τ → σ → σ} {m : Step τ α} :
    Ensures (focus part put m) s good bad ↔
      Ensures m (part s) (fun a t => good a (put t s)) (fun e t => bad e (put t s)) := by
  unfold Ensures
  rw [run_focus]
  cases m.run (part s) <;> rfl

@[simp] theorem ensures_onError {repair : σ → σ} {m : Step σ α} :
    Ensures (onError repair m) s good bad ↔ Ensures m s good (fun e t => bad e (repair t)) := by
  unfold Ensures
  rw [run_onError]
  cases m.run s <;> rfl

@[simp] theorem ensures_ensuring {close : σ → σ} {m : Step σ α} :
    Ensures (ensuring close m) s good bad ↔
      Ensures m s (fun a t => good a (close t)) (fun e t => bad e (close t)) := by
  unfold Ensures
  rw [run_ensuring]
  cases m.run s <;> rfl

@[simp] theorem ensures_ignoring {m : Step σ β} {good : Unit → σ → Prop} :
    Ensures (ignoring m) s good bad ↔ Ensures m s (fun _ => good ()) (fun _ => good ()) := by
  unfold Ensures
  rw [run_ignoring]
  unfold final exec
  cases m.run s <;> rfl

end Rules

end SecureBoot.Step
