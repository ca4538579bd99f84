import SecureBoot.Proofs.Bounds
import SecureBoot.Proofs.CheckedSession

/-!
Nothing is ever out of range. A session that keeps to its bounds breaks none of those that its steps
take for granted: the session that checks them all does what it does, step by step
(`agrees_checkedPush`, `agrees_checkedFinalize`). So whatever an opened session is asked, its layers
and cursors are in bounds, and it answers as if it had checked everything
(`Authenticator.answers_in_range`).
-/

namespace SecureBoot

open Step Checked

/-! ### Offsets -/

theorem Header.coveredSize_lt (h : Header) : h.coveredSize < wordLimit := by
  have hlt := h.length_lt
  simp only [coveredSize, signedSize, wordLimit]
  omega

namespace Layer

variable {σ : Type} {l : Layer}

/-- The offsets of the layer are those of a payload that lies near the start of the destination. -/
structure InOrder (l : Layer) : Prop where
  start_le : l.start ≤ Header.size
  done_le : l.done ≤ l.size

theorem size_lt (l : Layer) : l.size < 4294967296 := l.header.length_lt

theorem checkedDone_eq (l : Layer) : (l.checkedDone : Checked σ Nat) = pure l.done := by
  have hle : Header.signedSize ≤ l.processed := Nat.le_add_right ..
  rw [checkedDone, sub_of_le hle, processed, Nat.add_sub_cancel_left]

theorem InOrder.safeEnd_lt (h : l.InOrder) : l.start + l.done < wordLimit := by
  have hstart := h.start_le
  have hdone := h.done_le
  have hsize := l.size_lt
  simp only [Header.size] at hstart
  simp only [wordLimit]
  omega

theorem InOrder.stop_lt (h : l.InOrder) : l.start + l.size < wordLimit := by
  have hstart := h.start_le
  have hsize := l.size_lt
  simp only [Header.size] at hstart
  simp only [wordLimit]
  omega

theorem checkedSafeEnd_eq (h : l.InOrder) : (l.checkedSafeEnd : Checked σ Nat) = pure l.safeEnd := by
  rw [checkedSafeEnd, checkedDone_eq, pure_bind, add_of_lt h.safeEnd_lt, safeEnd]

theorem checkedStop_eq (h : l.InOrder) : (l.checkedStop : Checked σ Nat) = pure l.stop := by
  rw [checkedStop, add_of_lt h.stop_lt, stop]

theorem checkedRun_eq {available : Nat} (h : l.safeEnd ≤ min available l.stop) :
    (l.checkedRun l.safeEnd (min available l.stop) l.stop : Checked σ Nat) =
      pure (l.runnable available) := by
  rw [checkedRun, sub_of_le h, pure_bind, bound_of l.mode.granule_pos, pure_bind,
    sub_of_le (Nat.mod_le _ _)]
  simp only [runnable]
  split <;> rfl

theorem Covers.inOrder {w : Window} (h : l.Covers w) : l.InOrder :=
  ⟨by rw [h.start_eq]; exact Nat.zero_le _, h.done_le⟩

theorem LiesIn.inOrder {outer : Layer} (h : outer.LiesIn l) : l.InOrder :=
  ⟨Nat.le_of_eq h.start_eq, h.done_le⟩

end Layer

theorem Chain.Fits.inOrder {w : Window} {c : Chain} {l : Layer} (h : c.Fits w)
    (hl : l ∈ c.layers) : l.InOrder := by
  cases h with
  | empty => cases hl
  | undecided houter | single houter =>
    obtain rfl := List.mem_singleton.mp hl
    exact houter.inOrder
  | nested houter hinner =>
    rcases List.mem_pair.mp hl with rfl | rfl
    · exact houter.inOrder
    · exact hinner.inOrder

namespace Session

variable {α : Type} {s s' : Session} {l outer inner : Layer}

/-! ### Headers by their index -/

section Headers

variable {m : Step Session α} {f : PUnit → Checked Session α}

theorem agrees_headerAt {i : Nat} (hl : s'.chain.layers[i]? = some l)
    {f : Layer → Checked Session α} :
    Agrees (headerAt i >>= f) s' m s ↔ Agrees (f l) s' m s := by
  rw [headerAt, bind_assoc, agrees_get_left, hl, pure_bind]

theorem agrees_addHeader_empty (hchain : s'.chain = .empty) :
    Agrees (addHeader l >>= f) s' m s ↔ Agrees (f ⟨⟩) { s' with chain := .undecided l } m s := by
  rw [addHeader, bind_assoc, agrees_get_left, hchain]
  exact agrees_set_left

theorem agrees_addHeader_undecided (outer : Layer) (hchain : s'.chain = .undecided outer) :
    Agrees (addHeader l >>= f) s' m s ↔ Agrees (f ⟨⟩) { s' with chain := .nested outer l } m s := by
  rw [addHeader, bind_assoc, agrees_get_left, hchain]
  exact agrees_set_left

theorem agrees_checkedRemaining (h : s'.Bounded) {f : Nat → Checked Session α} :
    Agrees (checkedRemaining >>= f) s' m s ↔ Agrees (f s'.remaining) s' m s := by
  rw [checkedRemaining, bind_assoc, agrees_get_left, remaining]
  cases hl : s'.chain.outer? with
  | none => rw [pure_bind]
  | some outer => simp only [sub_of_le (h.fits.covers hl).filled_le, pure_bind]

end Headers

/-! ### Accepting a header -/

theorem bound_plan (mode : CryptoMode) :
    (bound (mode.plan.length ≤ maxOperations) : Checked Session Unit) = pure () :=
  bound_of (by cases mode <;> decide)

theorem add_signedSize (h : Header) :
    (add Header.signedSize h.length : Checked Session Nat) = pure (Header.signedSize + h.length) :=
  add_of_lt h.coveredSize_lt

/-- With room for a header, accepting one adds a layer to the chain. -/
theorem agrees_checkedAccept {h : Header} {start : Nat} (hroom : s.headerCount < maxHeaders)
    {f' : PUnit → Checked Session α} {f : Layer → Step Session α}
    (hf : ∀ mode platform contexts, resolve h.signingWord s.source s.permitted = .ok mode →
      Agrees (addHeader ⟨h, mode, start, 0, contexts⟩ >>= f')
        { s with platform := platform, permitted := s.permitted.inside mode }
        (f ⟨h, mode, start, 0, contexts⟩)
        { s with platform := platform, permitted := s.permitted.inside mode }) :
    Agrees (checkedAccept h start >>= f') s (accept h start >>= f) s := by
  have hsame : (checkedAccept h start).exec s = (lift (accept h start) >>= addHeader).exec s := by
    simp only [accept, lift_bind, lift_pure, lift_get, checkedAccept, bind_assoc, pure_bind,
      bound_plan, add_signedSize, exec_get_bind, bound_of hroom]
  have hagrees : Agrees ((lift (accept h start) >>= addHeader) >>= f') s (accept h start >>= f) s := by
    rw [bind_assoc]
    apply (agrees_lift _ _).bind (ensures_accept_resolved h start s)
    rintro l s₁ ⟨mode, platform, contexts, hmode, rfl, rfl⟩
    exact hf mode platform contexts hmode
  unfold Agrees at hagrees ⊢
  rw [exec_bind] at hagrees ⊢
  rwa [hsame]

/-! ### Running a header -/

/-- Putting a layer in the place of header `i` makes this of the chain. -/
def Puts (s : Session) (i : Nat) (put : Chain → Layer → Chain) : Prop :=
  ∀ l t, t.chain = s.chain →
    Agrees (putHeader i l) t (modify fun t => { t with chain := put t.chain l }) t

theorem puts_outer (hl : s.chain.outer? = some outer) : s.Puts 0 fun c l => c.withOuter l := by
  intro l t hchain
  rw [putHeader, agrees_get_left]
  obtain ⟨_, _, _, _, _, _, _, chain, _, _⟩ := t
  cases chain with
  | empty =>
    rw [← hchain] at hl
    cases hl
  | undecided _ | single _ | nested _ _ => rfl

theorem puts_inner (hchain : s.chain = .nested outer inner) : s.Puts 1 fun _ l => .nested outer l := by
  intro l t ht
  rw [putHeader, agrees_get_left, ht, hchain]
  rfl

theorem ensures_onPiece (start n : Nat) (m : Step Bench α) (s : Session) :
    Ensures (onPiece start n m) s (fun _ t => t.chain = s.chain) (fun _ _ => True) := by
  rw [onPiece, ensures_focus]
  unfold Ensures
  split
  · rfl
  · trivial

theorem agrees_checkedAdvance {i available : Nat} {put : Chain → Layer → Chain}
    (hl : s.chain.layers[i]? = some l) (horder : l.InOrder) (hstart : l.safeEnd ≤ available)
    (hready : available ≤ s.dest.length) (hput : s.Puts i put) (hself : put s.chain l = s.chain) :
    Agrees (checkedAdvance i available) s
      (runLayer l available >>= fun l => modify fun s => { s with chain := put s.chain l }) s := by
  obtain ⟨hreach, hdone⟩ := Layer.safeEnd_add_runnable_le hstart horder.done_le
  have hpos := l.mode.granule_pos
  -- Where nothing can run, both leave the layer as it is.
  have hnothing : Agrees (pure ⟨⟩) s (modify fun s => { s with chain := put s.chain l }) s := by
    change some (Except.ok PUnit.unit, s) =
      some (Except.ok PUnit.unit, { s with chain := put s.chain l })
    rw [hself]
  rw [checkedAdvance, agrees_headerAt hl, Layer.checkedSafeEnd_eq horder, pure_bind,
    Layer.checkedStop_eq horder, pure_bind, runLayer]
  by_cases hlimit : min available l.stop ≤ l.safeEnd
  · have hzero : l.runnable available = 0 := by
      have := l.runnable_le available
      omega
    simp only [if_pos hlimit, hzero, if_pos, pure_bind]
    exact hnothing
  · rw [if_neg hlimit, Layer.checkedRun_eq (Nat.le_of_lt (Nat.not_le.mp hlimit)), pure_bind]
    by_cases hzero : l.runnable available = 0
    · simp only [if_pos hzero, pure_bind]
      exact hnothing
    · have hstop : l.safeEnd + l.runnable available ≤ l.start + l.size := by
        rw [Layer.safeEnd, Nat.add_assoc]
        exact Nat.add_le_add_left hdone _
      simp only [if_neg hzero, bind_assoc, pure_bind, agrees_get_left]
      rw [add_of_lt (Nat.lt_of_le_of_lt hstop horder.stop_lt), pure_bind,
        inRange_of (Nat.le_add_right ..) (Nat.le_trans hreach hready), pure_bind]
      refine (agrees_lift _ s).bind (ensures_onPiece _ _ _ s) ?_
      intro contexts t hchain
      have hcovered : l.processed + l.runnable available ≤ l.header.coveredSize := by
        rw [Layer.processed, Nat.add_assoc]
        exact Nat.add_le_add_left hdone _
      rw [add_of_lt (Nat.lt_of_le_of_lt hcovered (Header.coveredSize_lt _)), pure_bind,
        bound_of hcovered, pure_bind]
      exact hput _ t hchain

/-! ### The inside -/

theorem agrees_checkedSettle (h : s.Bounded) (hne : s.chain ≠ .empty) :
    Agrees checkedSettle s settle s := by
  rw [checkedSettle, agrees_get_left, settle, agrees_get_right]
  cases hchain : s.chain with
  | empty => exact absurd hchain hne
  | single outer | nested outer inner =>
    have hpending : s.pending = false := by rw [pending, hchain]
    simp [hpending]
  | undecided outer =>
    have hpending : s.pending = true := by rw [pending, hchain]
    have hlayers : s.chain.layers[0]? = some outer := by rw [hchain]; rfl
    have hcovers := h.fits.covers (l := outer) (by rw [hchain]; rfl)
    simp only [hpending, not_true_eq_false, if_false]
    rw [agrees_headerAt hlayers, Layer.checkedDone_eq, pure_bind]
    by_cases hearly : outer.done < Header.size ∧ outer.done < outer.size
    · simp [hearly]
    · have hdone : outer.start + min outer.done Header.size ≤ s.dest.length := by
        have := hcovers.safeEnd_le
        have := hcovers.filled_le
        have := hcovers.size_le
        have := h.capacity
        simp only [Layer.safeEnd] at *
        omega
      have hword : outer.start + min outer.done Header.size < wordLimit := by
        rw [hcovers.start_eq, Nat.zero_add]
        exact Nat.lt_of_le_of_lt (Nat.min_le_right ..) (by decide)
      have hstart : outer.start + Header.size < wordLimit := by
        rw [hcovers.start_eq]
        decide
      rw [if_neg hearly, if_neg hearly, add_of_lt hword, pure_bind,
        inRange_of (Nat.le_add_right ..) hdone, pure_bind]
      apply agrees_ofExcept
      intro found _
      cases found with
      | none => rfl
      | some header =>
        have hroom : s.headerCount < maxHeaders := by simp [headerCount, hchain, Chain.layers]
        simp only
        rw [add_of_lt hstart, pure_bind, ← bind_pure (checkedAccept _ _)]
        apply agrees_checkedAccept hroom
        intro mode platform contexts _
        refine (agrees_addHeader_undecided outer ?_).mpr ?_
        · exact hchain
        · rfl

/-! ### The rounds of the loop over the headers -/

theorem Bounded.filled_le (h : s.Bounded) (hl : s.chain.outer? = some outer) :
    s.window.filled ≤ s.dest.length := by
  have hcovers := h.fits.covers hl
  rw [← h.capacity]
  exact Nat.le_trans hcovers.filled_le hcovers.size_le

theorem agrees_checkedRound_outer (h : s.Bounded) :
    Agrees (checkedRound 0) s (runOuter >>= fun _ => settle) s := by
  cases hl : s.chain.outer? with
  | none =>
    have hchain := Chain.eq_empty_of_outer? hl
    have hcount : ¬ 0 < s.headerCount := by simp [headerCount, hchain, Chain.layers]
    rw [checkedRound, agrees_get_left, if_neg hcount, runOuter, bind_assoc, agrees_get_right, hl,
      pure_bind, settle, agrees_get_right, hchain]
    rfl
  | some outer =>
    have hcovers := h.fits.covers hl
    have hne : s.chain ≠ .empty := fun hempty => by
      rw [hempty] at hl
      cases hl
    have hlayers : s.chain.layers[0]? = some outer := by
      rw [← List.head?_eq_getElem?]
      exact hl
    have hcount : 0 < s.headerCount := (List.getElem?_eq_some_iff.mp hlayers).1
    have hadvance : Agrees (checkedAdvance 0 s.window.filled) s runOuter s := by
      rw [runOuter, agrees_get_right, hl]
      exact agrees_checkedAdvance hlayers hcovers.inOrder hcovers.safeEnd_le (h.filled_le hl)
        (puts_outer hl) (Chain.withOuter_self hl)
    rw [checkedRound, agrees_get_left, if_pos hcount]
    apply hadvance.bind (quiet_runOuter s)
    intro _ t hquiet
    exact agrees_checkedSettle (h.reaches hquiet.reaches) (hquiet.reaches.chain_ne_empty hne)

theorem agrees_checkedRound_inner (h : s.Bounded) : Agrees (checkedRound 1) s runInner s := by
  rw [checkedRound, agrees_get_left, runInner, agrees_get_right]
  cases hchain : s.chain with
  | empty | undecided outer | single outer =>
    have hcount : ¬ 1 < s.headerCount := by simp [headerCount, hchain, Chain.layers]
    rw [if_neg hcount]
    rfl
  | nested outer inner =>
    have hcount : 1 < s.headerCount := by simp [headerCount, hchain, Chain.layers]
    have hl : s.chain.outer? = some outer := by rw [hchain]; rfl
    have hlayers : s.chain.layers[0]? = some outer := by rw [hchain]; rfl
    have hlayers' : s.chain.layers[1]? = some inner := by rw [hchain]; rfl
    have hcovers := h.fits.covers hl
    have hready := Nat.le_trans hcovers.safeEnd_le (h.filled_le hl)
    have hfits := h.fits
    rw [hchain] at hfits
    cases hfits with
    | nested _ hinner _ _ =>
      rw [if_pos hcount, agrees_headerAt hlayers, Layer.checkedSafeEnd_eq hcovers.inOrder, pure_bind]
      simp only [Nat.one_ne_zero, if_false, bind_pure_unit]
      exact agrees_checkedAdvance hlayers' hinner.inOrder hinner.safeEnd_le hready (puts_inner hchain)
        hchain.symm

/-! ### The safe cursor -/

theorem checkedSafe_single (h : outer.InOrder) : checkedSafe outer [] = pure outer.safeEnd := by
  rw [checkedSafe, Layer.checkedSafeEnd_eq h, pure_bind, List.foldlM_nil]

theorem checkedSafe_nested (h : outer.InOrder) (h' : inner.InOrder) :
    checkedSafe outer [inner] =
      pure (if inner.safeEnd < inner.stop then min outer.safeEnd inner.safeEnd
        else outer.safeEnd) := by
  simp only [checkedSafe, Layer.checkedSafeEnd_eq h, Layer.checkedSafeEnd_eq h',
    Layer.checkedStop_eq h', pure_bind, List.foldlM_cons, List.foldlM_nil]

/-- No more remains to be pushed than remains to be run. -/
theorem Bounded.remaining_le (h : s.Bounded) (hl : s.chain.outer? = some outer) :
    s.remaining ≤ outer.header.coveredSize - outer.processed := by
  have hcovers := h.fits.covers hl
  have hfilled := hcovers.safeEnd_le
  rw [Layer.safeEnd, hcovers.start_eq] at hfilled
  rw [remaining, hl, Header.coveredSize, Layer.processed, Nat.add_sub_add_left]
  simp only [Layer.size]
  omega

/-- Moving the safe cursor once the chain is settled, with all that is looked at on the way. -/
theorem agrees_commit_safe (h : s.Bounded) (hl : s.chain.outer? = some outer) {safe : Nat}
    (hsafe : s.chain.safe? = some safe) :
    Agrees
      (do
        let remaining ← checkedRemaining
        let covered ← sub outer.header.coveredSize outer.processed
        bound (remaining ≤ covered)
        sure (onWindow (Window.commit safe)))
      s (onWindow (Window.commit safe)) s := by
  have hcovers := h.fits.covers hl
  have hdone := hcovers.done_le
  have hcovered : outer.processed ≤ outer.header.coveredSize := Nat.add_le_add_left hdone _
  rw [agrees_checkedRemaining h, sub_of_le hcovered, pure_bind, bound_of (h.remaining_le hl),
    pure_bind]
  have hcommit : Ensures (onWindow (Window.commit safe)) s (fun _ _ => True) (fun _ _ => False) := by
    rw [onWindow, ensures_focus]
    exact (Window.ensures_commit (h.fits.safe_le_of_safe? hsafe)).mono (fun _ _ _ => trivial)
      fun _ _ hnever => hnever
  exact agrees_sure hcommit fun _ _ => id

theorem agrees_checkedCommit (h : s.Bounded) : Agrees checkedCommit s commit s := by
  rw [checkedCommit, agrees_get_left, commit, agrees_get_right]
  cases hchain : s.chain with
  | empty | undecided outer =>
    have hpending : s.pending = true := by rw [pending, hchain]
    rw [if_pos hpending]
    rfl
  | single outer =>
    have hpending : ¬ s.pending := by simp [pending, hchain]
    have hl : s.chain.outer? = some outer := by rw [hchain]; rfl
    have hsafe : s.chain.safe? = some outer.safeEnd := by rw [hchain]; rfl
    rw [if_neg hpending]
    simp only [Chain.layers, Chain.safe?]
    rw [checkedSafe_single (h.fits.covers hl).inOrder, pure_bind]
    exact agrees_commit_safe h hl hsafe
  | nested outer inner =>
    have hpending : ¬ s.pending := by simp [pending, hchain]
    have hl : s.chain.outer? = some outer := by rw [hchain]; rfl
    have hinner : inner.InOrder := h.fits.inOrder (by simp [hchain, Chain.layers])
    have hsafe : s.chain.safe? = some (if inner.safeEnd < inner.stop then
        min outer.safeEnd inner.safeEnd else outer.safeEnd) := by
      rw [hchain, Chain.safe?]
      split <;> rfl
    rw [if_neg hpending]
    rw [hchain] at hsafe
    simp only [Chain.layers, hsafe]
    rw [checkedSafe_nested (h.fits.covers hl).inOrder hinner, pure_bind]
    exact agrees_commit_safe h hl (by rw [hchain]; exact hsafe)

/-! ### Pushing -/

theorem agrees_checkedPump (h : s.Bounded) : Agrees checkedPump s pump s := by
  have hpump : pump = ((runOuter >>= fun _ => settle) >>= fun _ => runInner >>= fun _ => commit) := by
    rw [bind_assoc]
    rfl
  have hround : Moves Quiet id (runOuter >>= fun _ => settle) :=
    quiet_runOuter.bind fun _ => quiet_settle
  rw [checkedPump, hpump]
  apply (agrees_checkedRound_outer h).bind (hround s)
  intro _ s₁ hquiet₁
  have h₁ := h.reaches hquiet₁.reaches
  apply (agrees_checkedRound_inner h₁).bind (quiet_runInner s₁)
  intro _ s₂ hquiet₂
  have hcount : s₂.headerCount ≤ maxHeaders := s₂.chain.length_layers_le
  rw [agrees_get_left, bound_of hcount, pure_bind]
  exact agrees_checkedCommit (h₁.reaches hquiet₂.reaches)

theorem agrees_checkedConsume (h : s.Bounded) (payload : Bytes) :
    Agrees (checkedConsume payload) s (consume payload) s := by
  have hn : min payload.length s.remaining = (payload.take s.remaining).length := by
    rw [List.length_take, Nat.min_comm]
  have htake : payload.take (payload.take s.remaining).length = payload.take s.remaining := by
    rw [List.length_take, List.take_eq_take_iff]
    omega
  have hspace : s.window.filled + (payload.take s.remaining).length ≤ s.window.capacity :=
    Nat.le_trans (Nat.add_le_add_left (List.length_take_le ..) _) h.filled_add_remaining_le
  have hlen : (payload.take s.remaining).length ≤ payload.length := by
    rw [List.length_take]
    exact Nat.min_le_right ..
  rw [checkedConsume, agrees_checkedRemaining h, hn]
  dsimp only
  rw [inRange_of (Nat.zero_le _) hlen, pure_bind, consume, agrees_get_right]
  have hfill : Ensures (onWindow (Window.fill (payload.take s.remaining).length)) s
      (fun extent t => extent = ⟨s.window.filled, s.window.filled + (payload.take s.remaining).length⟩ ∧
        t = { s with window :=
          { s.window with filled := s.window.filled + (payload.take s.remaining).length } })
      (fun _ _ => False) := by
    rw [onWindow, ensures_focus]
    unfold Ensures
    rw [Window.run_fill, if_pos hspace]
    exact ⟨rfl, rfl⟩
  apply (agrees_sure hfill fun _ _ => id).bind hfill
  rintro extent t ⟨rfl, rfl⟩
  have hcapacity := h.capacity
  rw [agrees_get_left, inRange_of (Nat.le_add_right ..) (hcapacity ▸ hspace), pure_bind,
    bound_of (Nat.add_sub_cancel_left ..), pure_bind, htake]
  exact agrees_checkedPump (h.change (.taken (List.length_take_le ..) hspace))

theorem agrees_checkedPushFirst (h : s.Bounded) (hphase : s.phase = .awaitingHeader)
    (chunk : Bytes) : Agrees (checkedPushFirst chunk) s (pushFirst chunk) s := by
  rw [checkedPushFirst, agrees_get_left, pushFirst, agrees_get_right]
  apply agrees_ofExcept
  intro found hparse
  cases found with
  | none => rfl
  | some header =>
    obtain ⟨-, htake, hfit⟩ := Header.parse_eq_some_iff.mp hparse
    have hlong : Header.size ≤ chunk.length := by
      have hlen := congrArg List.length htake
      rw [List.length_take, Header.length_bytes_eq] at hlen
      omega
    have hchain := h.awaiting hphase
    have hroom : s.headerCount < maxHeaders := by simp [headerCount, hchain, Chain.layers]
    apply agrees_checkedAccept hroom
    intro mode platform contexts hmode
    refine (agrees_addHeader_empty ?_).mpr ?_
    · exact hchain
    dsimp only
    rw [inRange_of hlong (Nat.le_refl _), pure_bind]
    refine (agrees_headerAt (l := ⟨header, mode, 0, 0, contexts⟩) rfl).mpr ?_
    exact agrees_checkedConsume (h.change (.opened hphase hfit hmode platform contexts _)) _

theorem agrees_checkedPush (h : s.Bounded) (chunk : Bytes) (first : Bool) :
    Agrees (checkedPush chunk first) s (push chunk first) s := by
  apply Agrees.onError
  rw [agrees_get_left, agrees_get_right]
  cases hphase : s.phase <;> cases first
  case awaitingHeader.true => exact agrees_checkedPushFirst h hphase chunk
  case processing.false => exact agrees_checkedConsume h chunk
  all_goals rfl

/-! ### The verdict -/

theorem getElem?_last (hl : s.chain.innermost? = some l) :
    1 ≤ s.headerCount ∧ s.chain.layers[s.headerCount - 1]? = some l := by
  rw [Chain.innermost?, List.getLast?_eq_getElem?] at hl
  have hlt := (List.getElem?_eq_some_iff.mp hl).1
  exact ⟨by rw [headerCount]; omega, hl⟩

theorem agrees_checkedJudge (h : s.Bounded) : Agrees checkedJudge s judge s := by
  rw [checkedJudge, agrees_get_left, judge, agrees_get_right]
  apply agrees_require
  intro _
  cases hl : s.chain.outer? with
  | none => rfl
  | some outer =>
    obtain ⟨innermost, hi⟩ : ∃ l, s.chain.innermost? = some l := by
      have hne : s.chain.layers ≠ [] := fun hnil => by
        rw [Chain.outer?, hnil] at hl
        cases hl
      exact ⟨_, List.getLast?_eq_some_getLast hne⟩
    obtain ⟨hcount, hlast⟩ := getElem?_last hi
    simp only [hi]
    rw [agrees_checkedRemaining h]
    apply agrees_require
    intro _
    apply agrees_require
    intro _
    apply (agrees_lift _ s).bind (ensures_onPlatform _ s)
    rintro _ t ⟨platform, rfl⟩
    rw [sub_of_le hcount, pure_bind]
    refine (agrees_headerAt (l := innermost) ?_).mpr ?_
    · exact hlast
    · rw [Layer.checkedStop_eq (h.fits.inOrder (List.mem_of_getElem? hlast)), pure_bind, agrees_pure]
      exact ⟨rfl, rfl⟩

theorem agrees_checkedFinalize (h : s.Bounded) : Agrees checkedFinalize s finalize s :=
  (agrees_checkedJudge h).ensuring

/-! ### Whatever is asked -/

/-- **Every request is answered in range.** -/
theorem checkedAnswer_eq (h : s.Bounded) (r : Request) : s.checkedAnswer r = some (s.answer r) := by
  cases r with
  | push chunk first =>
    have hagrees : _ = _ := agrees_checkedPush h chunk first
    rw [checkedAnswer, hagrees]
    rfl
  | requireNvidia policy => rfl
  | finalize =>
    have hagrees : _ = _ := agrees_checkedFinalize h
    rw [checkedAnswer, hagrees]
    rfl

/-- The bounds of a session, header by header: what has been run and what remains, where the payloads
lie, and where the cursors stand. -/
structure InBounds (s : Session) : Prop where
  capacity : s.window.capacity = s.dest.length
  headers : s.headerCount ≤ maxHeaders
  processed : ∀ l ∈ s.chain.layers,
    Header.signedSize ≤ l.processed ∧ l.processed ≤ l.header.coveredSize
  empty : s.headerCount = 0 → s.window.filled = 0 ∧ s.window.safe = 0
  outer : ∀ l, s.chain.outer? = some l → l.start = 0 ∧ l.size ≤ s.window.capacity
  inner : ∀ l m, s.chain.layers = [l, m] →
    m.start = Header.size ∧ m.stop ≤ l.stop ∧ m.safeEnd ≤ l.safeEnd
  cursors : ∀ l, s.chain.outer? = some l →
    s.window.safe ≤ l.safeEnd ∧ l.safeEnd ≤ s.window.filled ∧ s.window.filled ≤ l.size
  remaining : ∀ l, s.chain.outer? = some l → s.remaining ≤ l.header.coveredSize - l.processed

theorem Bounded.inBounds (h : s.Bounded) : s.InBounds where
  capacity := h.capacity
  headers := s.chain.length_layers_le
  processed := fun l hl =>
    ⟨Nat.le_add_right .., Nat.add_le_add_left (h.fits.inOrder hl).done_le _⟩
  empty := h.fits.eq_zero
  outer := fun l hl => ⟨(h.fits.covers hl).start_eq, (h.fits.covers hl).size_le⟩
  inner := by
    intro l m hlayers
    have hinner := h.fits.liesIn hlayers
    exact ⟨hinner.start_eq, hinner.stop_le, hinner.safeEnd_le⟩
  cursors := fun l hl =>
    ⟨h.fits.safe_le hl, (h.fits.covers hl).safeEnd_le, (h.fits.covers hl).filled_le⟩
  remaining := fun l hl => h.remaining_le hl

end Session

namespace Authenticator

variable {a : Authenticator} {type : BinaryType} {dest : Bytes} {s : Session}

/-- **Nothing is ever out of range**: whatever an opened session has been asked, also after an error,
its headers and cursors are in bounds, and it answers the next request as a session that checks every
subtraction, sum, index and slice, that there is room for each header and each operation, and that no
cursor is refused its move. -/
theorem answers_in_range (hopen : (openSession type dest).outcome a = .ok s)
    (requests : List Session.Request) :
    (s.after requests).InBounds ∧
      ∀ r, (s.after requests).checkedAnswer r = some ((s.after requests).answer r) := by
  have hbounded := (awaits_of_openSession hopen).1.bounded.after requests
  exact ⟨hbounded.inBounds, Session.checkedAnswer_eq hbounded⟩

/-- A session for a token has taken in its header and half of the token, and answers the next push. -/
theorem answers_in_range_token :
    let header := (Header.blank .oemRsa 32).bytes
    let half : Bytes := List.replicate 16 0
    ∃ s, (openSession .rollbackToken (List.replicate 32 0)).outcome
        (fresh .t194 (.fresh .blank []) .disabled) = .ok s ∧
      (s.after [.push (header ++ half) true]).window.filled = 16 ∧
      (s.after [.push (header ++ half) true]).InBounds ∧
      ∀ r, (s.after [.push (header ++ half) true]).checkedAnswer r =
        some ((s.after [.push (header ++ half) true]).answer r) := by
  intro header half
  have hopen : (openSession .rollbackToken (List.replicate 32 0)).outcome
      (fresh .t194 (.fresh .blank []) .disabled) = .ok _ := rfl
  exact ⟨_, hopen, by decide +kernel, answers_in_range hopen _⟩

end Authenticator

end SecureBoot
