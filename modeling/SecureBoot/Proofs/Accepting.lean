import SecureBoot.Proofs.Position
import SecureBoot.Session.Push

/-!
Accepting a header. A header that the opening refuses is turned away before the engine is asked for
anything (`ensures_accept_error`). One that makes an envelope gets a layer whose operations have been
fed the signed section and nothing else; if a fault strikes on the way, all that has been set up for
it is closed again and the layers around it are left as they were (`ensures_accept`).
-/

namespace SecureBoot.Session

variable {o : Opening} {t : Trace} {s : Session} {h : Header}

/-- The key is chosen before anything else is done for an operation. -/
theorem openContexts_of_not_hasKey {e : Envelope} (hkey : ¬ e.HasKey) (keys : KeyTable) :
    Platform.openContexts e.mode keys e.header e.mode.plan = throw .invalid := by
  obtain ⟨hmode, hindex⟩ := Classical.not_imp.mp hkey
  obtain ⟨algorithm, rest, hplan, herr⟩ := CryptoMode.key_eq_error hmode hindex keys
  rw [hplan, Platform.openContexts, Platform.openContext, herr]
  rfl

theorem ensures_accept_error (hs : s.Rooted o t) {err : Error}
    (he : o.classify s.permitted h = .error err) (start : Nat) :
    Step.Ensures (accept h start) s (fun _ _ => False) (fun e s' => e = err ∧ s' = s) := by
  simp only [accept, Step.ensures_bind, Step.ensures_get, hs.source]
  unfold Opening.classify at he
  cases hr : resolve h.signingWord o.source s.permitted with
  | error err' =>
    rw [hr] at he
    cases he
    exact ⟨rfl, rfl⟩
  | ok mode =>
    rw [hr] at he
    simp only [bind, Except.bind] at he
    by_cases hkey : Envelope.HasKey ⟨h, mode⟩
    · rw [if_pos hkey] at he
      cases he
    · rw [if_neg hkey] at he
      cases he
      have hfail := openContexts_of_not_hasKey hkey s.keys
      simp only at hfail
      simp only [Step.ensures_ofExcept_ok, onPlatform, hfail, Step.ensures_focus, Step.ensures_throw]
      exact ⟨trivial, trivial⟩

/-- **Accepting a header**: a layer with nothing of its payload run, or nothing at all. -/
theorem ensures_accept (hs : s.Rooted o t) {e : Envelope}
    (he : o.classify s.permitted h = .ok e) (start : Nat) :
    Step.Ensures (accept h start) s
      (fun l s' => ∃ p u, s' = { s with platform := p, permitted := s.permitted.inside e.mode } ∧
        s'.Rooted o (t ++ u) ∧ l.Serves (t ++ u) o.ring e start [] ∧
        Trace.operations u = l.contexts.map Context.operation ∧
        ∀ contexts strands, Serving t contexts strands → Serving (t ++ u) contexts strands)
      (fun _ s' => o.board.Faulty ∧ ∃ p u, s' = { s with platform := p } ∧
        Board.Since o.board p.board (t ++ u) ∧ Trace.Undone u ∧
        Trace.Honours (t ++ u) (Trace.operations u) (e.strands o.ring [])) := by
  obtain ⟨hresolve, rfl, hkey⟩ := Opening.classify_eq_ok_iff.mp he
  have hkeys : ∀ algorithm ∈ e.mode.plan, e.mode.key o.ring.keys e.header.keyIndex algorithm =
      .ok (e.mode.chosenKey o.ring.keys e.header.keyIndex algorithm) :=
    fun algorithm halg => CryptoMode.key_eq_ok halg hkey o.ring.keys
  simp only [accept, Step.ensures_bind, Step.ensures_get, hs.source, hresolve,
    Step.ensures_ofExcept_ok, onPlatform, onBoard, Platform.onBoard, Step.ensures_focus,
    Step.ensures_onError, Step.ensures_modify, Step.ensures_pure, hs.keys]
  apply (Platform.ensures_openContexts hs.since hs.subkeys hkeys).mono
  · rintro opened p ⟨hcache, u, hp, hidle, hops, hbare⟩
    obtain ⟨hnodup, hnew⟩ := hp.orderly.fresh_contexts hops
    have hregion : ∀ j ∈ e.jobs o.ring, j.setup.regionSize =
        (e.header.lead j.algorithm).length + e.size := fun j hj => e.regionSize_of_mem_jobs o.ring hj
    apply (Board.ensures_feedSection hregion hp hbare hnodup).mono
    · rintro contexts b ⟨hsame, v, hb, huses, hserve⟩
      have hempty : ∀ contexts strands, Serving t contexts strands →
          Serving (t ++ (u ++ v)) contexts strands := by
        intro contexts strands hserving
        rw [← List.append_assoc]
        apply (hserving.frame_idle hidle).frame huses
        intro c hc hid
        obtain ⟨d, hd, hdc⟩ := List.mem_map.mp hid
        obtain ⟨strand, -, hfed⟩ := hserving.fed_of_mem hc
        exact hnew d hd (hdc ▸ hfed.live.1)
      refine ⟨{ p with board := b }, u ++ v, rfl, ?_, ?_, ?_, hempty⟩
      · exact
          { since := by rwa [← List.append_assoc]
            subkeys := hcache
            source := rfl
            keys := rfl }
      · exact
          { header := rfl
            mode := rfl
            start_eq := rfl
            done := rfl
            serving := by rwa [← List.append_assoc] }
      · rw [Trace.operations_append, huses.operations_eq_nil, List.append_nil, hops, hsame]
    · rintro err b ⟨hfaulty, v, hb, huses, hkeeps⟩
      -- The operations have been set up, so closing them is all that is left to do.
      have hlive : ∀ c ∈ opened, Trace.Live (t ++ u ++ v) c.id := by
        intro c hc
        obtain ⟨strand, -, hfed⟩ := Serving.fed_of_mem hbare hc
        exact huses.live_iff.mpr hfed.live
      have hopsall : Trace.operations (u ++ v ++ opened.map fun c => Event.close c.id) =
          opened.map Context.operation := by
        rw [Trace.operations_append, Trace.operations_append, Trace.operations_closes,
          huses.operations_eq_nil, List.append_nil, List.append_nil, hops]
      refine ⟨hfaulty, { p with board := b.closeAll opened },
        u ++ v ++ opened.map fun c => .close c.id, rfl, ?_, .close_all hidle hops huses, ?_⟩
      · rw [← List.append_assoc, ← List.append_assoc]
        exact hb.closeAll hlive hnodup
      · rw [hopsall, ← List.append_assoc, ← List.append_assoc]
        exact (Trace.Honours.of_forall₂ hkeeps).append fun op _ => Trace.fed_closes opened op.id
  · rintro err p ⟨hfaulty, -, u, hp, hundone, hfed, hjobs⟩
    refine ⟨hfaulty, p, u, rfl, hp, hundone, .of_jobs hjobs (fun op hop => ?_) _ _⟩
    have hnew : ¬ t.Opened op.id := fun hold => hp.orderly.not_opened_both hold ⟨op, hop, rfl⟩
    have hold : t.fed op.id = [] := hs.since.orderly.fed_eq_nil hnew
    rw [Trace.fed_append, hold, hfed, List.append_nil]

end SecureBoot.Session
