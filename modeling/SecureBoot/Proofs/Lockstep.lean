import SecureBoot.Proofs.Ensures

/-!
Two runs side by side. `Step.Lockstep R V m m'` says that from states related by `R` two steps end
alike: both succeed, with values related by `V`, or both fail with the same error, and either way the
states that they leave are related again. There is one rule for each way of putting steps together, so
two programs of the same shape go in lockstep if their parts do. `SameEnd.outcome_eq` and
`SameEnd.final` read the results back off.
-/

namespace SecureBoot.Step

variable {σ τ α β : Type}

/-- The ends of two runs are the same, as far as `V` tells values apart and `R` states. -/
inductive SameEnd (V : α → α → Prop) (R : σ → σ → Prop) :
    EStateM.Result Error σ α → EStateM.Result Error σ α → Prop where
  | ok {a a' : α} {s s' : σ} (hvalue : V a a') (hstate : R s s') : SameEnd V R (.ok a s) (.ok a' s')
  | error {s s' : σ} (e : Error) (hstate : R s s') : SameEnd V R (.error e s) (.error e s')

/-- From related states the steps end alike, and the states that they leave are related, too. -/
def Lockstep (R : σ → σ → Prop) (V : α → α → Prop) (m m' : Step σ α) : Prop :=
  ∀ s s', R s s' → SameEnd V R (m.run s) (m'.run s')

variable {R : σ → σ → Prop} {V : α → α → Prop} {W : β → β → Prop} {m m' : Step σ α}

/-- Two runs end alike if each ends with the outcome `r`. -/
theorem SameEnd.of_ensures {r : Except Error α} {P Q : σ → Prop} {s s' : σ}
    (h : Ensures m s (fun a t => r = .ok a ∧ P t) (fun e t => r = .error e ∧ P t))
    (h' : Ensures m' s' (fun a t => r = .ok a ∧ Q t) (fun e t => r = .error e ∧ Q t))
    (hR : ∀ t t', P t → Q t' → R t t') : SameEnd Eq R (m.run s) (m'.run s') := by
  unfold Ensures at h h'
  cases hrun : m.run s with
  | ok a t =>
    rw [hrun] at h
    obtain ⟨rfl, ht⟩ := h
    cases hrun' : m'.run s' with
    | ok a' t' =>
      rw [hrun'] at h'
      obtain ⟨⟨⟩, ht'⟩ := h'
      exact .ok rfl (hR t t' ht ht')
    | error e' t' =>
      rw [hrun'] at h'
      cases h'.1
  | error e t =>
    rw [hrun] at h
    obtain ⟨rfl, ht⟩ := h
    cases hrun' : m'.run s' with
    | ok a' t' =>
      rw [hrun'] at h'
      cases h'.1
    | error e' t' =>
      rw [hrun'] at h'
      obtain ⟨⟨⟩, ht'⟩ := h'
      exact .error _ (hR t t' ht ht')

/-! ### Reading results off -/

section Results

variable {s s' : σ}

theorem SameEnd.final (h : SameEnd V R (m.run s) (m'.run s')) : R (m.final s) (m'.final s') := by
  unfold Step.final exec
  generalize m.run s = r, m'.run s' = r' at h ⊢
  cases h with
  | ok _ hstate => exact hstate
  | error _ hstate => exact hstate

theorem SameEnd.outcome (h : SameEnd V R (m.run s) (m'.run s')) :
    (∃ a a', m.outcome s = .ok a ∧ m'.outcome s' = .ok a' ∧ V a a') ∨
      ∃ e, m.outcome s = .error e ∧ m'.outcome s' = .error e := by
  unfold Step.outcome exec
  generalize m.run s = r, m'.run s' = r' at h ⊢
  cases h with
  | ok hvalue => exact .inl ⟨_, _, rfl, rfl, hvalue⟩
  | error e => exact .inr ⟨e, rfl, rfl⟩

theorem SameEnd.outcome_eq (h : SameEnd Eq R (m.run s) (m'.run s')) :
    m'.outcome s' = m.outcome s := by
  obtain ⟨a, _, hok, hok', rfl⟩ | ⟨e, herror, herror'⟩ := h.outcome
  · rw [hok, hok']
  · rw [herror, herror']

end Results

/-! ### One rule for each way of putting steps together -/

theorem lockstep_pure {a a' : α} (h : V a a') : Lockstep R V (pure a) (pure a') :=
  fun _ _ hs => .ok h hs

theorem lockstep_throw (e : Error) : Lockstep R V (throw e) (throw e) := fun _ _ hs => .error e hs

theorem lockstep_get : Lockstep R R get get := fun _ _ hs => .ok hs hs

/-- What follows a look at the state may be held to the states that were seen. -/
theorem SameEnd.of_get {f f' : σ → Step σ α} {s s' : σ} (hs : R s s')
    (h : Lockstep R V (f s) (f' s')) :
    SameEnd V R (EStateM.run (get >>= f) s) (EStateM.run (get >>= f') s') := h s s' hs

theorem lockstep_set {t t' : σ} (h : R t t') : Lockstep R Eq (set t) (set t') :=
  fun _ _ _ => .ok rfl h

theorem lockstep_modify {f f' : σ → σ} (h : ∀ s s', R s s' → R (f s) (f' s')) :
    Lockstep R Eq (modify f : Step σ PUnit) (modify f') := fun s s' hs => .ok rfl (h s s' hs)

theorem lockstep_ofExcept (r : Except Error α) :
    Lockstep R (fun a a' => a' = a ∧ r = .ok a) (ofExcept r) (ofExcept r) := by
  cases r with
  | ok a => exact lockstep_pure ⟨rfl, rfl⟩
  | error e => exact lockstep_throw e

theorem lockstep_require (p : Prop) [Decidable p] (e : Error) :
    Lockstep R Eq (require p e) (require p e) := by
  unfold require
  split
  · exact lockstep_pure rfl
  · exact lockstep_throw e

/-- A step goes in lockstep with itself. -/
theorem lockstep_self (m : Step σ α) : Lockstep Eq Eq m m := by
  rintro s _ rfl
  cases m.run s with
  | ok a t => exact .ok rfl rfl
  | error e t => exact .error e rfl

theorem Lockstep.bind {n n' : Step σ β} {f f' : β → Step σ α} (hn : Lockstep R W n n')
    (hf : ∀ b b', W b b' → Lockstep R V (f b) (f' b')) : Lockstep R V (n >>= f) (n' >>= f') := by
  intro s s' hs
  rw [EStateM.run_bind, EStateM.run_bind]
  have h := hn s s' hs
  generalize n.run s = r, n'.run s' = r' at h ⊢
  cases h with
  | ok hvalue hstate => exact hf _ _ hvalue _ _ hstate
  | error e hstate => exact .error e hstate

theorem Lockstep.imp {V' : α → α → Prop} (hm : Lockstep R V m m')
    (h : ∀ a a', V a a' → V' a a') : Lockstep R V' m m' := by
  intro s s' hs
  have hends := hm s s' hs
  generalize m.run s = r, m'.run s' = r' at hends ⊢
  cases hends with
  | ok hvalue hstate => exact .ok (h _ _ hvalue) hstate
  | error e hstate => exact .error e hstate

theorem Lockstep.map {n n' : Step σ β} {f f' : β → α} (hn : Lockstep R W n n')
    (hf : ∀ b b', W b b' → V (f b) (f' b')) : Lockstep R V (f <$> n) (f' <$> n') := by
  rw [map_eq_pure_bind, map_eq_pure_bind]
  exact hn.bind fun b b' hb => lockstep_pure (hf b b' hb)

/-- Steps on parts of two states, if the parts are related where the states are, and the states where
the parts are. -/
theorem Lockstep.focus {Q : τ → τ → Prop} {part : σ → τ} {put : τ → σ → σ} {n n' : Step τ α}
    {part' : σ → τ} {put' : τ → σ → σ} (hn : Lockstep Q V n n')
    (hpart : ∀ s s', R s s' → Q (part s) (part' s'))
    (hput : ∀ s s' t t', R s s' → Q t t' → R (put t s) (put' t' s')) :
    Lockstep R V (Step.focus part put n) (Step.focus part' put' n') := by
  intro s s' hs
  rw [run_focus, run_focus]
  have h := hn _ _ (hpart s s' hs)
  generalize n.run (part s) = r, n'.run (part' s') = r' at h ⊢
  cases h with
  | ok hvalue hstate => exact .ok hvalue (hput _ _ _ _ hs hstate)
  | error e hstate => exact .error e (hput _ _ _ _ hs hstate)

theorem SameEnd.onError {repair repair' : σ → σ} {s s' : σ} (hends : SameEnd V R (m.run s) (m'.run s'))
    (h : ∀ s s', R s s' → R (repair s) (repair' s')) :
    SameEnd V R (EStateM.run (Step.onError repair m) s) (EStateM.run (Step.onError repair' m') s') := by
  rw [run_onError, run_onError]
  generalize m.run s = r, m'.run s' = r' at hends ⊢
  cases hends with
  | ok hvalue hstate => exact .ok hvalue hstate
  | error e hstate => exact .error e (h _ _ hstate)

theorem Lockstep.onError {repair repair' : σ → σ} (hm : Lockstep R V m m')
    (h : ∀ s s', R s s' → R (repair s) (repair' s')) :
    Lockstep R V (Step.onError repair m) (Step.onError repair' m') :=
  fun s s' hs => (hm s s' hs).onError h

/-- What is done at the end in any case may lead from one relation to another. -/
theorem SameEnd.ensuring {R' : σ → σ → Prop} {close close' : σ → σ} {s s' : σ}
    (hends : SameEnd V R (m.run s) (m'.run s')) (h : ∀ s s', R s s' → R' (close s) (close' s')) :
    SameEnd V R' (EStateM.run (Step.ensuring close m) s) (EStateM.run (Step.ensuring close' m') s') := by
  rw [run_ensuring, run_ensuring]
  generalize m.run s = r, m'.run s' = r' at hends ⊢
  cases hends with
  | ok hvalue hstate => exact .ok hvalue (h _ _ hstate)
  | error e hstate => exact .error e (h _ _ hstate)

end SecureBoot.Step
