import SecureBoot.Proofs.Changes

/-!
The bounds that a session keeps to. The lengths that headers declare are anybody's, and all offsets
are computed from them, so what keeps every access inside the destination is one condition on the
chain and the cursors together (`Chain.Fits`): the outer layer covers the destination from its start
and has taken up no more than its payload, the inner layer lies in the outer one and never runs ahead
of it, and nothing counts as output that a layer is still going to run over.

Every change keeps that condition (`Bounded.change`), also one in the middle of a request that fails
later on. `Works.within` is what it gives for a layer that runs.
-/

namespace SecureBoot

namespace Layer

variable {l outer inner : Layer} {w : Window} {n : Nat} {contexts : List Context}

/-- The layer covers the window from its start, and the window has taken up some of its payload. -/
structure Covers (w : Window) (l : Layer) : Prop where
  start_eq : l.start = 0
  size_le : l.size ≤ w.capacity
  safeEnd_le : l.safeEnd ≤ w.filled
  filled_le : w.filled ≤ l.size

/-- The payload of the inner layer lies behind its header in that of the outer one, which runs
ahead. -/
structure LiesIn (outer inner : Layer) : Prop where
  start_eq : inner.start = Header.size
  done_le : inner.done ≤ inner.size
  stop_le : inner.stop ≤ outer.stop
  safeEnd_le : inner.safeEnd ≤ outer.safeEnd

@[simp] theorem stop_advance : (l.advance n contexts).stop = l.stop := rfl

@[simp] theorem safeEnd_advance : (l.advance n contexts).safeEnd = l.safeEnd + n :=
  (Nat.add_assoc ..).symm

/-- A layer runs up to what is available to it and up to the end of its payload. -/
theorem safeEnd_add_runnable_le {available : Nat} (h : l.safeEnd ≤ available)
    (hdone : l.done ≤ l.size) :
    l.safeEnd + l.runnable available ≤ available ∧ l.done + l.runnable available ≤ l.size := by
  have hle := l.runnable_le available
  simp only [stop, safeEnd] at hle h ⊢
  omega

namespace Covers

theorem done_le (h : l.Covers w) : l.done ≤ l.size := by
  have := h.start_eq
  have := h.safeEnd_le
  have := h.filled_le
  simp only [safeEnd] at *
  omega

theorem advance (h : l.Covers w) (contexts : List Context) :
    (l.advance (l.runnable w.filled) contexts).Covers w :=
  { h with
    safeEnd_le := by
      rw [safeEnd_advance]
      exact (safeEnd_add_runnable_le h.safeEnd_le h.done_le).1 }

end Covers

namespace LiesIn

theorem advance (h : LiesIn outer inner) (contexts : List Context) :
    LiesIn outer (inner.advance (inner.runnable outer.safeEnd) contexts) :=
  { h with
    done_le := (safeEnd_add_runnable_le h.safeEnd_le h.done_le).2
    safeEnd_le := by
      rw [safeEnd_advance]
      exact (safeEnd_add_runnable_le h.safeEnd_le h.done_le).1 }

theorem advance_outer (h : LiesIn outer inner) (n : Nat) (contexts : List Context) :
    LiesIn (outer.advance n contexts) inner :=
  { h with
    safeEnd_le := by
      rw [safeEnd_advance]
      exact Nat.le_trans h.safeEnd_le (Nat.le_add_right ..) }

end LiesIn

end Layer

/-- The chain keeps to a window. Output is what no layer will run over any more. -/
inductive Chain.Fits (w : Window) : Chain → Prop where
  | empty (hfilled : w.filled = 0) (hsafe : w.safe = 0) : Fits w .empty
  | undecided {outer : Layer} (houter : outer.Covers w) (hsafe : w.safe = 0) :
      Fits w (.undecided outer)
  | single {outer : Layer} (houter : outer.Covers w) (hsafe : w.safe ≤ outer.safeEnd) :
      Fits w (.single outer)
  | nested {outer inner : Layer} (houter : outer.Covers w) (hinner : outer.LiesIn inner)
      (hsafe : w.safe ≤ outer.safeEnd)
      (hpending : inner.safeEnd < inner.stop → w.safe ≤ inner.safeEnd) :
      Fits w (.nested outer inner)

namespace Chain.Fits

variable {w : Window} {c : Chain} {l : Layer}

theorem covers (h : c.Fits w) (hl : c.outer? = some l) : l.Covers w := by
  cases h with
  | empty => cases hl
  | undecided houter => cases hl; exact houter
  | single houter => cases hl; exact houter
  | nested houter => cases hl; exact houter

theorem safe_le (h : c.Fits w) (hl : c.outer? = some l) : w.safe ≤ l.safeEnd := by
  cases h with
  | empty => cases hl
  | undecided _ hsafe => exact hsafe ▸ Nat.zero_le _
  | single _ hsafe => cases hl; exact hsafe
  | nested _ _ hsafe => cases hl; exact hsafe

theorem liesIn {inner : Layer} (h : c.Fits w) (hlayers : c.layers = [l, inner]) : l.LiesIn inner := by
  cases h with
  | empty | undecided | single => cases hlayers
  | nested _ hinner =>
    cases hlayers
    exact hinner

/-- Without a header nothing has been taken up. -/
theorem eq_zero (h : c.Fits w) (hempty : c.layers.length = 0) : w.filled = 0 ∧ w.safe = 0 := by
  cases h with
  | empty hfilled hsafe => exact ⟨hfilled, hsafe⟩
  | undecided | single | nested => cases hempty

theorem filled_le (h : c.Fits w) : w.filled ≤ w.capacity := by
  cases h with
  | empty hfilled => exact hfilled ▸ Nat.zero_le _
  | undecided houter | single houter | nested houter =>
    exact Nat.le_trans houter.filled_le houter.size_le

theorem safe_le_filled (h : c.Fits w) : w.safe ≤ w.filled := by
  cases h with
  | empty _ hsafe | undecided _ hsafe => exact hsafe ▸ Nat.zero_le _
  | single houter hsafe | nested houter _ hsafe => exact Nat.le_trans hsafe houter.safeEnd_le

/-- What the chain counts as output is no less than what the window does, and has been taken up. -/
theorem safe_le_of_safe? (h : c.Fits w) {safe : Nat} (hsafe : c.safe? = some safe) :
    w.safe ≤ safe ∧ safe ≤ w.filled := by
  cases h with
  | empty | undecided => cases hsafe
  | @single outer houter hle =>
    cases hsafe
    exact ⟨hle, houter.safeEnd_le⟩
  | @nested outer inner houter hinner hle hpending =>
    have := houter.safeEnd_le
    simp only [safe?] at hsafe
    split at hsafe
    · cases hsafe
      have := hpending ‹_›
      omega
    · cases hsafe
      exact ⟨hle, this⟩

theorem released (h : c.Fits w) : (c.map Layer.released).Fits w := by
  cases h with
  | empty hfilled hsafe => exact .empty hfilled hsafe
  | undecided houter hsafe => exact .undecided { houter with } hsafe
  | single houter hsafe => exact .single { houter with } hsafe
  | nested houter hinner hsafe hpending =>
    exact .nested { houter with } { hinner with } hsafe hpending

/-- More payload may be taken up, as long as there is any. -/
theorem fill (h : c.Fits w) {n : Nat} (hsome : 0 < n → ∃ l, c.outer? = some l)
    (hfit : ∀ l, c.outer? = some l → w.filled + n ≤ l.size) :
    c.Fits { w with filled := w.filled + n } := by
  have hcovers : ∀ {l : Layer}, c.outer? = some l → l.Covers w →
      l.Covers { w with filled := w.filled + n } := fun hl hcovers =>
    { hcovers with
      safeEnd_le := Nat.le_trans hcovers.safeEnd_le (Nat.le_add_right ..)
      filled_le := hfit _ hl }
  cases h with
  | empty hfilled hsafe =>
    refine .empty ?_ hsafe
    rcases Nat.eq_zero_or_pos n with rfl | hpos
    · exact hfilled
    · obtain ⟨l, hl⟩ := hsome hpos
      cases hl
  | undecided houter hsafe => exact .undecided (hcovers rfl houter) hsafe
  | single houter hsafe => exact .single (hcovers rfl houter) hsafe
  | nested houter hinner hsafe hpending =>
    exact .nested (hcovers rfl houter) hinner hsafe hpending

/-- The window may count as output what the chain does. -/
theorem commit (h : c.Fits w) {safe : Nat} (hsafe : c.safe? = some safe) :
    c.Fits { w with safe := safe } := by
  cases h with
  | empty | undecided => cases hsafe
  | single houter hle =>
    cases hsafe
    exact .single { houter with } (Nat.le_refl _)
  | @nested outer inner houter hinner hle hpending =>
    simp only [safe?] at hsafe
    split at hsafe
    · cases hsafe
      exact .nested { houter with } hinner (Nat.min_le_left ..) fun _ => Nat.min_le_right ..
    · cases hsafe
      exact .nested { houter with } hinner (Nat.le_refl _) fun hlt => absurd hlt ‹_›

/-- The outer layer may run. -/
theorem advance (h : c.Fits w) (hl : c.outer? = some l) (contexts : List Context) :
    (c.withOuter (l.advance (l.runnable w.filled) contexts)).Fits w := by
  have hcovers := (h.covers hl).advance contexts
  have hsafe := h.safe_le hl
  have hmore : w.safe ≤ (l.advance (l.runnable w.filled) contexts).safeEnd := by
    rw [Layer.safeEnd_advance]
    exact Nat.le_trans hsafe (Nat.le_add_right ..)
  cases h with
  | empty => cases hl
  | undecided houter hzero =>
    cases hl
    exact .undecided hcovers hzero
  | single houter hle =>
    cases hl
    exact .single hcovers hmore
  | nested houter hinner hle hpending =>
    cases hl
    exact .nested hcovers (hinner.advance_outer _ _) hmore hpending

/-- The inner layer may run. -/
theorem advance_inner {outer inner : Layer} (h : (Chain.nested outer inner).Fits w)
    (contexts : List Context) :
    (Chain.nested outer (inner.advance (inner.runnable outer.safeEnd) contexts)).Fits w := by
  cases h with
  | nested houter hinner hsafe hpending =>
    refine .nested houter (hinner.advance contexts) hsafe fun hlt => ?_
    rw [Layer.safeEnd_advance, Layer.stop_advance] at hlt
    rw [Layer.safeEnd_advance]
    have := hpending (Nat.lt_of_le_of_lt (Nat.le_add_right ..) hlt)
    omega

end Chain.Fits

namespace Session

variable {s s' : Session}

/-- The session keeps to its bounds. -/
structure Bounded (s : Session) : Prop where
  capacity : s.window.capacity = s.dest.length
  awaiting : s.phase = .awaitingHeader → s.chain = .empty
  fits : s.chain.Fits s.window

/-- There is room for all that remains of the outer payload. -/
theorem Bounded.filled_add_remaining_le (h : s.Bounded) :
    s.window.filled + s.remaining ≤ s.window.capacity := by
  have hfilled := h.fits.filled_le
  unfold remaining
  cases hl : s.chain.outer? with
  | none => exact hfilled
  | some outer =>
    have hsize := (h.fits.covers hl).size_le
    simp only
    omega

section Works

variable {l : Layer} {available : Nat} {put : Layer → Chain}

/-- A layer runs over what has been taken up and does not count as output. -/
theorem Works.within (hworks : s.Works l available put) (h : s.chain.Fits s.window) :
    l.safeEnd + l.runnable available ≤ s.window.filled ∧
      (0 < l.runnable available → s.window.safe ≤ l.safeEnd) := by
  cases hworks with
  | outer hl =>
    have hcovers := h.covers hl
    exact ⟨(Layer.safeEnd_add_runnable_le hcovers.safeEnd_le hcovers.done_le).1,
      fun _ => h.safe_le hl⟩
  | @inner outer inner hchain =>
    rw [hchain] at h
    cases h with
    | nested houter hinner hsafe hpending =>
      have hrun := Layer.safeEnd_add_runnable_le hinner.safeEnd_le hinner.done_le
      refine ⟨Nat.le_trans hrun.1 houter.safeEnd_le, fun hpos => hpending ?_⟩
      -- There is something to run, so the payload has not been run to its end.
      simp only [Layer.safeEnd, Layer.stop]
      omega

theorem Works.fits (hworks : s.Works l available put) (h : s.chain.Fits s.window)
    (contexts : List Context) :
    (put (l.advance (l.runnable available) contexts)).Fits s.window := by
  cases hworks with
  | outer hl => exact h.advance hl contexts
  | @inner outer inner hchain =>
    rw [hchain] at h
    exact h.advance_inner contexts

end Works

/-- **What every change keeps.** -/
theorem Bounded.change (h : s.Bounded) (hchange : s.Change s') : s'.Bounded := by
  cases hchange with
  | asked platform => exact { h with }
  | required policy => exact { h with }
  | released =>
    refine ⟨h.capacity, fun hphase => ?_, h.fits.released⟩
    rw [release, h.awaiting hphase]
    rfl
  | stopped hphase =>
    refine ⟨h.capacity, fun hawaiting => ?_, h.fits⟩
    rcases hphase with rfl | rfl <;> cases hawaiting
  | @opened header mode hphase hfit hmode platform contexts short =>
    have hempty := h.fits
    rw [h.awaiting hphase] at hempty
    cases hempty with
    | empty hfilled hsafe =>
      refine ⟨h.capacity, fun hawaiting => ?_, .undecided ⟨rfl, hfit, Nat.zero_le _, ?_⟩ hsafe⟩
      · cases hawaiting
      · exact Nat.le_trans (Nat.le_of_eq hfilled) (Nat.zero_le _)
  | @taken payload hremaining hspace =>
    refine ⟨?_, h.awaiting, h.fits.fill ?_ ?_⟩
    · rw [length_overwrite]
      exact h.capacity
    · intro hpos
      unfold remaining at hremaining
      cases hl : s.chain.outer? with
      | none =>
        rw [hl] at hremaining
        exact absurd hpos (Nat.not_lt.mpr hremaining)
      | some l => exact ⟨l, rfl⟩
    · intro l hl
      have hle := (h.fits.covers hl).filled_le
      rw [remaining, hl] at hremaining
      simp only at hremaining
      omega
  | @ran l available put hworks piece hpiece platform contexts =>
    refine ⟨?_, fun hphase => ?_, hworks.fits h.fits contexts⟩
    · rw [length_overwrite]
      exact h.capacity
    · have hempty := h.awaiting hphase
      cases hworks with
      | outer hl => rw [hempty] at hl; cases hl
      | inner hchain => rw [hempty] at hchain; cases hchain
  | spoiled hworks hpiece platform =>
    refine ⟨?_, h.awaiting, h.fits⟩
    rw [length_overwrite]
    exact h.capacity
  | @settledSingle outer hchain =>
    have hfits := h.fits
    rw [hchain] at hfits
    cases hfits with
    | undecided houter hzero =>
      have hsafe : s.window.safe ≤ outer.safeEnd := Nat.le_trans (Nat.le_of_eq hzero) (Nat.zero_le _)
      refine ⟨h.capacity, fun hphase => ?_, .single houter hsafe⟩
      cases hchain.symm.trans (h.awaiting hphase)
  | @settledNested outer header mode hchain hdone hfit hmode platform contexts =>
    have hfits := h.fits
    rw [hchain] at hfits
    cases hfits with
    | undecided houter hzero =>
      have hstart := houter.start_eq
      have hdone' := houter.done_le
      have hsafe : ∀ n, s.window.safe ≤ n := fun n =>
        Nat.le_trans (Nat.le_of_eq hzero) (Nat.zero_le n)
      refine ⟨h.capacity, fun hphase => ?_, .nested houter ?_ (hsafe _) fun _ => hsafe _⟩
      · cases hchain.symm.trans (h.awaiting hphase)
      · refine ⟨by rw [hstart, Nat.zero_add], Nat.zero_le _, ?_, ?_⟩
        · simp only [Layer.stop, Layer.size] at hfit hdone' ⊢
          omega
        · simp only [Layer.safeEnd]
          omega
  | committed hsafe hmin hmax => exact ⟨h.capacity, h.awaiting, h.fits.commit hsafe⟩

theorem Bounded.reaches (h : s.Bounded) (hreach : s.Reaches s') : s'.Bounded :=
  hreach.keeps (fun h hchange => h.change hchange) h

/-- **A session keeps to its bounds**, whatever is asked of it. -/
theorem Bounded.after (h : s.Bounded) (requests : List Request) : (s.after requests).Bounded :=
  h.reaches (s.reaches_after requests)

/-- A session that awaits its header has nothing taken up. -/
theorem Awaits.bounded {o : Opening} {policy : NvidiaPolicy} {t : Trace} (h : s.Awaits o policy t) :
    s.Bounded where
  capacity := by rw [h.window, h.dest]
  awaiting := fun _ => h.chain
  fits := by
    rw [h.chain, h.window]
    exact .empty rfl rfl

end Session

end SecureBoot
