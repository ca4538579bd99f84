import SecureBoot.Proofs.Changes
import SecureBoot.Proofs.Cursors

/-!
Chunks that bring nothing. A push runs all that can be run, so that a session which is taking in
payload is at rest: every layer has run what it may, it is settled whether there is another header
inside unless that cannot be told yet, and the safe cursor is where it belongs. Running everything
once more is then no change at all (`Session.At.ensures_pump`), and no part of it calls the engine.

Bytes past the end of the outer payload are dropped before anything else is done with them
(`Session.consume_take`), so a chunk has the effect of those of its bytes that are still missing
(`Authenticator.push_eq_push_take`).
-/

namespace SecureBoot

@[simp] theorem overwrite_nil (b : Bytes) (start : Nat) : overwrite b start [] = b := by
  simp [overwrite]

/-! ### Layers at rest -/

namespace Layer

/-- A layer with nothing to run is left as it is. -/
theorem runLayer_of_runnable_eq_zero {l : Layer} {available : Nat} (h : l.runnable available = 0) :
    Session.runLayer l available = pure l := by
  rw [Session.runLayer, if_pos h]

namespace Serves

variable {o : Opening} {t : Trace} {raw : Bytes} {l : Layer}

/-- The outer operations have run all that they may. -/
theorem runnable_eq_zero {outline : Outline}
    (hl : l.Serves t o.ring outline.outer 0 (Progress.reached outline raw).outerInput)
    (hp : (Progress.reached outline raw).Sound o) : l.runnable raw.length = 0 := by
  have hlen : (Progress.reached outline raw).outerInput.length = outline.outer.portion raw.length :=
    hp.length_outerInput
  have hadd := hl.length_add_runnable (n := raw.length) (hlen ▸ Envelope.aligned_portion _)
    (hlen ▸ Envelope.portion_le) (hlen ▸ Envelope.portion_le_size)
  rw [Nat.zero_add] at hadd
  omega

/-- And so have the inner ones, with what the outer ones have released. -/
theorem inner_runnable_eq_zero {e i : Envelope} {m : Layer}
    (hl : l.Serves t o.ring e 0 (Progress.reached (.nested e i) raw).outerInput)
    (hm : m.Serves t o.ring i Header.size ((Progress.reached (.nested e i) raw).innerInput o.ring))
    (hp : (Progress.reached (.nested e i) raw).Sound o) : m.runnable l.safeEnd = 0 := by
  have hlen : ((Progress.reached (.nested e i) raw).innerInput o.ring).length =
      i.portion (e.portion raw.length - Header.size) := hp.length_innerInput o.ring
  have hreleased : Header.size ≤ e.portion raw.length := Nat.le_trans (Nat.le_add_right ..) hp.inner.2.2
  have havailable : l.safeEnd = Header.size + (e.portion raw.length - Header.size) := by
    rw [hl.safeEnd_eq, hp.length_outerInput, Nat.zero_add, Nat.add_sub_cancel' hreleased]
    rfl
  have hadd := hm.length_add_runnable (n := e.portion raw.length - Header.size)
    (hlen ▸ Envelope.aligned_portion _) (hlen ▸ Envelope.portion_le) (hlen ▸ Envelope.portion_le_size)
  rw [← havailable] at hadd
  omega

end Serves

end Layer

namespace Session

variable {o : Opening} {policy : NvidiaPolicy} {image : Bytes} {s : Session}

/-! ### Sessions at rest -/

theorem At.ensures_runOuter (h : s.At o policy image) :
    Step.Ensures runOuter s (fun _ s' => s' = s) (fun _ _ => False) := by
  obtain ⟨outline, t, -, hp, hshows, -⟩ := h
  obtain ⟨l, houter, hl⟩ := hshows.chain.outer
  have hrest : l.runnable s.window.filled = 0 := by
    rw [hshows.filled]
    exact hl.runnable_eq_zero hp
  simp only [runOuter, Step.ensures_bind, Step.ensures_get, houter,
    Layer.runLayer_of_runnable_eq_zero hrest, Step.ensures_pure, Step.ensures_modify,
    Chain.withOuter_self houter]

/-- As long as the chain is undecided there is too little to tell. -/
theorem At.ensures_settle (h : s.At o policy image) :
    Step.Ensures settle s (fun _ s' => s' = s) (fun _ _ => False) := by
  obtain ⟨outer, houter, hcursors⟩ := h.cursors
  have hinside := hcursors.inside
  have hdone : outer.done ≤ outer.size := by
    rw [hcursors.done]
    split
    · exact Nat.le_refl _
    · exact Nat.le_trans (Nat.sub_le ..) (Nat.min_le_right ..)
  cases hchain : s.chain with
  | undecided l =>
    rw [hchain] at houter hinside
    cases houter
    have hshort : outer.done < Header.size ∧ outer.done < outer.size := by
      have hunsettled := not_or.mp hinside.1
      omega
    simp only [settle, Step.ensures_bind, Step.ensures_get, hchain, if_pos hshort, Step.ensures_pure]
  | empty | single | nested =>
    simp only [settle, Step.ensures_bind, Step.ensures_get, hchain, Step.ensures_pure]

theorem At.ensures_runInner (h : s.At o policy image) :
    Step.Ensures runInner s (fun _ s' => s' = s) (fun _ _ => False) := by
  obtain ⟨outline, t, -, hp, hshows, -⟩ := h
  cases hshows.chain with
  | undecided _ hchain | single _ hchain =>
    simp only [runInner, Step.ensures_bind, Step.ensures_get, hchain, Step.ensures_pure]
  | nested hout hchain hl hm =>
    obtain rfl : outline = .nested _ _ := hout
    have hrest := hl.inner_runnable_eq_zero hm hp
    simp only [runInner, Step.ensures_bind, Step.ensures_get, hchain,
      Layer.runLayer_of_runnable_eq_zero hrest, Step.ensures_pure, Step.ensures_modify]
    rw [← hchain]

theorem At.ensures_commit (h : s.At o policy image) :
    Step.Ensures commit s (fun _ s' => s' = s) (fun _ _ => False) := by
  obtain ⟨outline, t, -, hp, hshows, hsafe⟩ := h
  have hcommitted := hshows.chain.safe?_eq hp rfl
  simp only [commit, Step.ensures_bind, Step.ensures_get]
  cases hfound : s.chain.safe? with
  | none => rfl
  | some position =>
    obtain rfl : position = s.window.safe := by
      rw [hfound] at hcommitted
      rw [hsafe]
      generalize Progress.reached outline _ = p at hcommitted ⊢
      cases hout : p.outline <;> rw [hout] at hcommitted <;> cases hcommitted <;> rfl
    have hfilled : s.window.safe ≤ s.window.filled := by
      rw [hsafe, hshows.filled]
      exact Nat.le_trans (Progress.safe_le _) hp.outerDone_le
    simp only [onWindow, Step.ensures_focus]
    refine (Window.ensures_commit ⟨Nat.le_refl _, hfilled⟩).mono ?_ fun _ _ hnever => hnever
    rintro _ w rfl
    rfl

/-- **A session that is taking in payload is at rest**: to run everything there is changes nothing. -/
theorem At.ensures_pump (h : s.At o policy image) :
    Step.Ensures pump s (fun _ s' => s' = s) (fun _ _ => False) := by
  simp only [pump, Step.ensures_bind]
  refine h.ensures_runOuter.mono ?_ fun _ _ hnever => hnever
  rintro _ _ rfl
  refine h.ensures_settle.mono ?_ fun _ _ hnever => hnever
  rintro _ _ rfl
  refine h.ensures_runInner.mono ?_ fun _ _ hnever => hnever
  rintro _ _ rfl
  exact h.ensures_commit

/-! ### Surplus bytes -/

/-- Only the bytes that are missing count. -/
theorem consume_take {s : Session} {n : Nat} (h : s.remaining ≤ n) (payload : Bytes) :
    (consume (payload.take n)).run s = (consume payload).run s := by
  simp only [consume, EStateM.run_bind, EStateM.run_get, List.take_take, Nat.min_eq_left h]

/-- And if none of them is missing, none of them does anything. -/
theorem At.ensures_consume (h : s.At o policy image) {payload : Bytes}
    (hnothing : payload.take s.remaining = []) :
    Step.Ensures (consume payload) s (fun _ s' => s' = s) (fun _ _ => False) := by
  have hspace : s.window.filled + ([] : Bytes).length ≤ s.window.capacity := by
    obtain ⟨outline, t, -, hp, hshows, -⟩ := h
    rw [hshows.filled, hshows.capacity]
    exact Nat.le_trans hp.raw_le hp.size_le
  simp only [consume, Step.ensures_bind, Step.ensures_get, Step.ensures_modify, hnothing, onWindow,
    Step.ensures_focus]
  refine (Window.ensures_fill hspace).mono ?_ fun _ _ hnever => hnever
  rintro extent w ⟨hextent, rfl⟩
  rw [hextent, overwrite_nil]
  exact h.ensures_pump

/-- What comes after the payload that a header declares does not count in the first chunk, either. -/
theorem pushFirst_take {chunk : Bytes} {h : Header} (hchunk : chunk.take Header.size = h.bytes)
    (s : Session) :
    (pushFirst (chunk.take (Header.size + h.length))).run s = (pushFirst chunk).run s := by
  have hparse (limit : SizeLimit) :
      Header.parse (chunk.take (Header.size + h.length)) limit = Header.parse chunk limit := by
    rw [← Header.parse_take, List.take_take, Nat.min_eq_left (Nat.le_add_right ..),
      Header.parse_take]
  have hpayload : (chunk.take (Header.size + h.length)).drop Header.size =
      (chunk.drop Header.size).take h.length := by
    rw [List.drop_take, Nat.add_sub_cancel_left]
  simp only [pushFirst, EStateM.run_bind, EStateM.run_get, hparse, hpayload]
  cases hfound : Header.parse chunk (.capacity s.window.capacity) with
  | error err => rfl
  | ok found =>
    cases found with
    | none => rfl
    | some found =>
      obtain rfl : found = h := Header.eq_of_bytes_eq
        ((Header.parse_eq_some_iff.mp hfound).2.1.symm.trans hchunk)
      have hheader : Step.Ensures (accept found 0) s (fun l _ => l.header = found)
          (fun _ _ => True) := by
        refine (ensures_accept_resolved found 0 s).mono ?_ fun _ _ _ => trivial
        rintro l s' ⟨mode, platform, contexts, -, rfl, -⟩
        rfl
      unfold Step.Ensures at hheader
      simp only [Step.run_ofExcept_ok, EStateM.run_bind]
      cases haccept : (accept found 0).run s with
      | error err s' => rfl
      | ok outer s' =>
        rw [haccept] at hheader
        have hwhole : found.length ≤ ((chunk.drop Header.size).take found.length).length ↔
            found.length ≤ (chunk.drop Header.size).length := by
          rw [List.length_take, Nat.le_min]
          exact and_iff_right (Nat.le_refl _)
        simp only [hwhole]
        refine consume_take ?_ _
        exact Nat.le_trans (Nat.sub_le ..) (Nat.le_of_eq (congrArg Header.length hheader))

/-! ### Pushes -/

/-- A push that goes on comes to what its payload comes to. -/
theorem exec_push_congr {chunk chunk' : Bytes} (hphase : s.phase = .processing)
    (h : (consume chunk).run s = (consume chunk').run s) :
    (push chunk false).exec s = (push chunk' false).exec s := by
  simp only [Step.exec, push, Step.run_onError, EStateM.run_bind, EStateM.run_get, hphase, h]

/-- And so does the push that brings the header. -/
theorem exec_push_first_congr {chunk chunk' : Bytes}
    (h : (pushFirst chunk).run s = (pushFirst chunk').run s) :
    (push chunk true).exec s = (push chunk' true).exec s := by
  simp only [Step.exec, push, Step.run_onError, EStateM.run_bind, EStateM.run_get]
  cases s.phase <;> simp only [h]

theorem At.exec_push (h : s.At o policy image) {chunk : Bytes}
    (hnothing : chunk.take s.remaining = []) : (push chunk false).exec s = (.ok (), s) := by
  apply Step.Ensures.exec_eq
  simp only [push, Step.ensures_onError, Step.ensures_bind, Step.ensures_get, h.phase]
  exact (h.ensures_consume hnothing).mono (fun _ _ hsame => ⟨trivial, hsame⟩) fun _ _ hnever => hnever

end Session

namespace Authenticator

variable {a : Authenticator} {type : BinaryType} {dest : Bytes} {s : Session}

open Session

/-- **Surplus bytes and empty chunks do nothing.** Whatever has been asked of a session that is
taking in payload, a chunk has the same outcome as those of its bytes that are still missing, makes
the same calls and leaves the same session and destination behind. If it has no such bytes, because it
is empty or because the payload is complete, it is taken in and changes nothing at all. In the chunk
that brings the header, too, the bytes after the payload that the header declares do not count. -/
theorem push_eq_push_take (hopen : (openSession type dest).outcome a = .ok s)
    (requests : List Session.Request) :
    let t := s.after requests
    (t.phase = .processing → ∀ chunk,
      (push chunk false).exec t = (push (chunk.take t.remaining) false).exec t ∧
      (chunk = [] ∨ t.remaining = 0 → (push chunk false).exec t = (.ok (), t))) ∧
    ∀ (h : Header) (payload : Bytes),
      (push (h.bytes ++ payload) true).exec t =
        (push (h.bytes ++ payload.take h.length) true).exec t := by
  intro t
  obtain ⟨hawaits, -⟩ := awaits_of_openSession hopen
  refine ⟨fun hphase chunk => ⟨?_, fun hnothing => ?_⟩, fun h payload => ?_⟩
  · exact (exec_push_congr hphase (consume_take (Nat.le_refl _) chunk)).symm
  · obtain ⟨policy, hat⟩ := ((Coherent.awaiting hawaits rfl).after requests).exists_at hphase
    apply hat.exec_push
    rcases hnothing with rfl | hcomplete
    · exact List.take_nil
    · rw [hcomplete, List.take_zero]
  · have hlength := h.length_bytes_eq
    have hheader : (h.bytes ++ payload).take Header.size = h.bytes := List.take_left' hlength
    have hcut : (h.bytes ++ payload).take (Header.size + h.length) =
        h.bytes ++ payload.take h.length := by
      rw [← hlength, List.take_append, List.take_of_length_le (Nat.le_add_right ..),
        Nat.add_sub_cancel_left]
    exact exec_push_first_congr (hcut ▸ (pushFirst_take hheader t).symm)

/-- Three bytes too many, and then all of them. -/
theorem push_eq_push_take_token :
    let a := fresh .t194 (.fresh .blank []) .disabled
    let header := (Header.blank .oemRsa 32).bytes
    let requests : List Session.Request := [.push header true, .push (List.replicate 30 7) false]
    ∃ s, (openSession .rollbackToken (List.replicate 32 0)).outcome a = .ok s ∧
      (s.after requests).remaining = 2 ∧
      (push (List.replicate 5 7) false).exec (s.after requests) =
        (push (List.replicate 2 7) false).exec (s.after requests) ∧
      (push [] false).exec (s.after requests) = (.ok (), s.after requests) := by
  intro a header requests
  obtain ⟨s, hopen, hphase, hremaining⟩ :
      ∃ s, (openSession .rollbackToken (List.replicate 32 0)).outcome a = .ok s ∧
        (s.after requests).phase = .processing ∧ (s.after requests).remaining = 2 :=
    ⟨_, rfl, by decide +kernel, by decide +kernel⟩
  obtain ⟨hnext, -⟩ := push_eq_push_take hopen requests
  obtain ⟨hsurplus, -⟩ := hnext hphase (List.replicate 5 7)
  rw [hremaining] at hsurplus
  exact ⟨s, hopen, hremaining, hsurplus, (hnext hphase []).2 (.inl rfl)⟩

end Authenticator

end SecureBoot
