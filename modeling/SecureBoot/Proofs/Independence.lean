import SecureBoot.Proofs.Parallel
import SecureBoot.Proofs.Readings
import SecureBoot.Proofs.Turns

/-!
Sessions do not depend on the ones before them. What outlives a session are the sub-keys and the fused
mode that it has found out and the operations that it has set up. An authenticator without faults has
kept nothing but what it would find out again (`Authenticator.Sound`, which every request preserves,
`Authenticator.Sound.answer`), so it stands beside a fresh one: the same calls but for their numbers,
and but for those that what is kept makes superfluous (`Board.Beside`). The likeness `afterwards` of
their sessions is lawful, and so a session that each of them opens is the same
(`Authenticator.sessions_independent`).
-/

namespace SecureBoot

open Step

/-! ### Calls, but for the past -/

/-- The call in a world where `n` operations have been set up before. -/
def Event.shift (n : Nat) : Event → Event
  | .init algorithm setup result => .init algorithm setup (result.map (· + n))
  | .process id data result => .process (id + n) data result
  | .finalize id result => .finalize (id + n) result
  | .close id => .close (id + n)
  | .derive slot result => .derive slot result
  | .query field result => .query field result
  | .read field size result => .read field size result
  | .write field data result => .write field data result

/-- Whether the call gets something that may be known from before: sub-keys, or the fuses that select
the mode. -/
def Event.isRemembered : Event → Bool
  | .derive .. | .query .bootSecurityInfo _ | .read .bootSecurityInfo .. => true
  | _ => false

/-- The calls that have to be made whatever is known from before. -/
def Trace.essential (t : Trace) : Trace := t.filter fun e => !e.isRemembered

theorem Event.isSome_opened?_shift (n : Nat) (e : Event) :
    (e.shift n).opened?.isSome = e.opened?.isSome := by
  cases e with
  | init algorithm setup result => cases result <;> rfl
  | process | finalize | close | derive | query | read | write => rfl

theorem Event.isRemembered_shift (n : Nat) (e : Event) :
    (e.shift n).isRemembered = e.isRemembered := by
  cases e with
  | query field | read field => cases field <;> rfl
  | init | process | finalize | close | derive | write => rfl

theorem Event.isSome_opened?_of_isRemembered {e : Event} (h : e.isRemembered) :
    e.opened?.isSome = false := by
  cases e with
  | init => cases h
  | process | finalize | close | derive | query | read | write => rfl

namespace Trace

theorem essential_append (t u : Trace) : essential (t ++ u) = essential t ++ essential u :=
  List.filter_append ..

theorem essential_of_remembered {t : Trace} (h : ∀ e ∈ t, e.isRemembered) : essential t = [] := by
  rw [essential, List.filter_eq_nil_iff]
  intro e he
  simp [h e he]

end Trace

/-- The operation in a world where `n` operations have been set up before it. -/
def Context.shift (n : Nat) (c : Context) : Context := { c with id := c.id + n }

theorem Context.feed_shift (n : Nat) (c : Context) (data : Bytes) :
    (c.shift n).feed data = (c.feed data).map fun r => (r.1.shift n, r.2) := by
  unfold feed
  rw [apply_ite (Except.map _), apply_ite (Except.map _)]
  rfl

/-! ### Boards without faults -/

namespace Board

variable {α : Type}

/-- A board with these fuses that no fault can strike. -/
structure Faultless (fuses : FuseBank) (b : Board) : Prop where
  fuses : b.fuses = fuses
  faults : b.faults = []

theorem run_perform_of_faults {b : Board} (h : b.faults = []) (call : Call)
    (answer : Board → Except Error α) (event : Except Error α → Event) :
    (perform call answer event).run b =
      match answer b with
      | .ok a => .ok a (b.record (event (.ok a)))
      | .error e => .error e (b.record (event (.error e))) := by
  have hresult := result_of_no_fault (fault?_of_faults h call) (answer b)
  cases hanswer : answer b with
  | ok a => rw [run_perform, hresult, hanswer]
  | error e => rw [run_perform, hresult, hanswer]

theorem ensures_perform_of_faults {b : Board} (h : b.faults = []) {call : Call}
    {answer : Board → Except Error α} {event : Except Error α → Event} {good : α → Board → Prop}
    {bad : Error → Board → Prop} :
    Ensures (perform call answer event) b good bad ↔
      match answer b with
      | .ok a => good a (b.record (event (.ok a)))
      | .error e => bad e (b.record (event (.error e))) := by
  unfold Ensures
  rw [run_perform_of_faults h]
  cases answer b <;> rfl

theorem nextId_recordAll (b : Board) (u : Trace) :
    (b.recordAll u).nextId = b.nextId + u.countP fun e => e.opened?.isSome :=
  List.countP_append ..

/-- One board has been used for the same as the other, numbered from `n` on, after the calls in
`past`. -/
structure Beside (fuses : FuseBank) (n : Nat) (past : Trace) (b b' : Board) : Prop where
  faultless : b.Faultless fuses
  faultless' : b'.Faultless fuses
  nextId : b'.nextId = b.nextId + n
  trace : ∃ u : Trace, b'.trace = past ++ u ∧
    u.essential = (Trace.essential b.trace).map (Event.shift n)

/-- The calls between two states of a board may all be spared by who remembers. -/
def Recalls (b b' : Board) : Prop := ∃ u : Trace, b' = b.recordAll u ∧ ∀ e ∈ u, e.isRemembered

theorem Recalls.refl (b : Board) : b.Recalls b :=
  ⟨[], by simp [recordAll], fun _ he => absurd he List.not_mem_nil⟩

theorem Recalls.recordAll (b : Board) {u : Trace} (hu : ∀ e ∈ u, e.isRemembered) :
    b.Recalls (b.recordAll u) := ⟨u, rfl, hu⟩

namespace Beside

variable {fuses : FuseBank} {n : Nat} {past : Trace} {b b' c c' : Board}

theorem recordAll (h : Beside fuses n past b b') (u : Trace) :
    Beside fuses n past (b.recordAll u) (b'.recordAll (u.map (Event.shift n))) where
  faultless := ⟨h.faultless.fuses, h.faultless.faults⟩
  faultless' := ⟨h.faultless'.fuses, h.faultless'.faults⟩
  nextId := by
    rw [nextId_recordAll, nextId_recordAll, h.nextId, List.countP_map]
    simp only [Function.comp_def, Event.isSome_opened?_shift]
    omega
  trace := by
    obtain ⟨v, hv, hsame⟩ := h.trace
    refine ⟨v ++ u.map (Event.shift n), by simp [Board.recordAll, hv], ?_⟩
    have hshift :
        Trace.essential (u.map (Event.shift n)) = (Trace.essential u).map (Event.shift n) := by
      simp only [Trace.essential, List.filter_map, Function.comp_def, Event.isRemembered_shift]
    rw [Trace.essential_append, hsame, hshift, Board.recordAll, Trace.essential_append,
      List.map_append]

theorem record (h : Beside fuses n past b b') (e : Event) :
    Beside fuses n past (b.record e) (b'.record (e.shift n)) := h.recordAll [e]

theorem fault?_eq (h : Beside fuses n past b b') (call : Call) : b'.fault? call = b.fault? call := by
  rw [fault?, fault?, h.faultless.faults, h.faultless'.faults]
  rfl

/-- What is remembered may be asked for on either side. -/
theorem recalls (h : Beside fuses n past b b') (hc : b.Recalls c) (hc' : b'.Recalls c') :
    Beside fuses n past c c' := by
  obtain ⟨u, rfl, hu⟩ := hc
  obtain ⟨u', rfl, hu'⟩ := hc'
  have hopened : ∀ {u : Trace}, (∀ e ∈ u, e.isRemembered) →
      (u.countP fun e => e.opened?.isSome) = 0 := by
    intro u hu
    rw [List.countP_eq_zero]
    intro e he
    simp [Event.isSome_opened?_of_isRemembered (hu e he)]
  refine ⟨⟨h.faultless.fuses, h.faultless.faults⟩, ⟨h.faultless'.fuses, h.faultless'.faults⟩, ?_, ?_⟩
  · rw [nextId_recordAll, nextId_recordAll, hopened hu, hopened hu']
    exact h.nextId
  · obtain ⟨v, hv, hsame⟩ := h.trace
    refine ⟨v ++ u', by simp [Board.recordAll, hv], ?_⟩
    rw [Board.recordAll, Trace.essential_append, Trace.essential_append,
      Trace.essential_of_remembered hu, Trace.essential_of_remembered hu', List.append_nil,
      List.append_nil, hsame]

end Beside

end Board

/-! ### What is remembered -/

/-- The cache holds for each slot the sub-keys of its key. -/
def SubkeyCache.Sound (cache : SubkeyCache) : Prop :=
  ∀ entry ∈ cache.entries, entry.2 = Subkeys.ofSlot entry.1

namespace SubkeyCache.Sound

variable {cache : SubkeyCache}

theorem get?_eq (h : cache.Sound) {slot : KeySlot} {subkeys : Subkeys}
    (hget : cache.get? slot = some subkeys) : subkeys = Subkeys.ofSlot slot := by
  obtain ⟨before, after, hentries, -⟩ := List.lookup_eq_some_iff.mp hget
  exact h (slot, subkeys) (by simp [hentries])

theorem touch (h : cache.Sound) (slot : KeySlot) :
    (cache.touch slot (Subkeys.ofSlot slot)).Sound := by
  intro entry hentry
  rcases List.mem_cons.mp (List.mem_of_mem_take hentry) with rfl | hrest
  · rfl
  · exact h entry (List.mem_of_mem_filter hrest)

end SubkeyCache.Sound

/-- Getting the sub-keys of a slot gets those of its key, whether they are remembered or not. -/
theorem Platform.ensures_subkeys_sound {p : Platform} (hfaults : p.board.faults = [])
    (hsound : p.cache.Sound) (slot : KeySlot) :
    Ensures (Platform.subkeys slot) p
      (fun k p' => k = Subkeys.ofSlot slot ∧ p.board.Recalls p'.board ∧ p'.cache.Sound)
      (fun _ _ => False) := by
  simp only [Platform.subkeys, Platform.findSubkeys, ensures_bind, ensures_get, ensures_modify,
    ensures_pure]
  cases hget : p.cache.get? slot with
  | some subkeys =>
    obtain rfl := hsound.get?_eq hget
    exact ⟨rfl, .refl _, hsound.touch slot⟩
  | none =>
    simp only [Platform.onBoard, ensures_focus]
    unfold Ensures Board.deriveSubkeys
    rw [Board.run_perform_of_faults hfaults]
    have hrecalls : ∀ e ∈ [Event.derive slot (.ok (Subkeys.ofSlot slot))], e.isRemembered := by
      simp [Event.isRemembered]
    exact ⟨rfl, ⟨_, rfl, hrecalls⟩, hsound.touch slot⟩

/-! ### Two runs, one of them with a past -/

/-- Two runs without faults, the other one after the calls in `past`, by which `n` operations have been
set up. -/
def afterwards (fuses : FuseBank) (n : Nat) (past : Trace) : Likeness where
  board := Board.Beside fuses n past
  cache cache cache' := cache.Sound ∧ cache'.Sound
  header := Eq
  context _ _ c c' := c' = c.shift n
  mode _ := True

section Afterwards

variable (fuses : FuseBank) (n : Nat) (past : Trace)

theorem lockstep_subkeys (slot : KeySlot) :
    Lockstep (afterwards fuses n past).Platforms Eq (Platform.subkeys slot)
      (Platform.subkeys slot) := by
  rintro p p' ⟨hboard, hsound, hsound'⟩
  refine .of_ensures (r := .ok (Subkeys.ofSlot slot))
    (P := fun q => p.board.Recalls q.board ∧ q.cache.Sound)
    (Q := fun q => p'.board.Recalls q.board ∧ q.cache.Sound) ?_ ?_ ?_
  · exact (Platform.ensures_subkeys_sound hboard.faultless.faults hsound slot).mono
      (fun k q hq => ⟨congrArg _ hq.1.symm, hq.2⟩) fun _ _ => False.elim
  · exact (Platform.ensures_subkeys_sound hboard.faultless'.faults hsound' slot).mono
      (fun k q hq => ⟨congrArg _ hq.1.symm, hq.2⟩) fun _ _ => False.elim
  · rintro q q' ⟨hq, hcache⟩ ⟨hq', hcache'⟩
    exact ⟨hboard.recalls hq hq', hcache, hcache'⟩

theorem lockstep_start_shift (algorithm : Algorithm) (setup : Setup) :
    Lockstep (Board.Beside fuses n past) (fun c c' => c' = c.shift n) (Board.start algorithm setup)
      (Board.start algorithm setup) := by
  unfold Board.start
  refine (Board.lockstep_perform (V := fun id id' => id' = id + n) (· + n)
    (fun b b' hb => hb.fault?_eq _) ?_ (fun _ _ _ => rfl) ?_).bind ?_
  · intro b b' hb
    obtain ⟨key, _⟩ := setup
    rw [hb.nextId]
    cases algorithm <;> cases key <;> rfl
  · exact fun b b' r hb => hb.record (.init algorithm setup r)
  · rintro id _ rfl
    exact lockstep_pure rfl

theorem lawful_afterwards : (afterwards fuses n past).Lawful where
  header_refl _ := rfl
  signedSection := by
    rintro h _ rfl
    rfl
  algorithm := by
    rintro _ _ c _ rfl
    rfl
  openContext := by
    rintro mode h _ - rfl keys algorithm -
    refine (lockstep_ofExcept _).bind ?_
    rintro _ key ⟨rfl, -⟩
    have hsubkeys : Lockstep (afterwards fuses n past).Platforms Eq
        (Platform.subkeysFor algorithm key) (Platform.subkeysFor algorithm key) := by
      unfold Platform.subkeysFor
      split
      · exact (lockstep_subkeys fuses n past _).map fun _ _ => congrArg some
      · exact lockstep_pure rfl
    refine hsubkeys.bind ?_
    rintro subkeys _ rfl
    exact Likeness.lockstep_onBoard (lockstep_start_shift fuses n past _ _)
  process := by
    rintro _ _ c _ rfl data
    refine Board.lockstep_perform (fun r => (r.1.shift n, r.2)) (fun b b' hb => hb.fault?_eq _)
      (fun _ _ _ => c.feed_shift n data) (fun _ _ _ => ⟨rfl, rfl⟩) ?_
    intro b b' r hb
    have hrecord := hb.record (.process c.id data (r.map (·.2)))
    cases r <;> exact hrecord
  finalize := by
    rintro c _ ⟨_, _, rfl⟩ -
    refine Board.lockstep_perform id (fun b b' hb => hb.fault?_eq _) ?_ (fun _ _ _ => rfl) ?_
    · intro b b' _
      rw [Except.map_id]
      rfl
    · intro b b' r hb
      rw [Except.map_id]
      exact hb.record (.finalize c.id r)
  close := by
    rintro c _ b b' hb ⟨_, _, rfl⟩
    exact hb.record (.close c.id)

end Afterwards

/-! ### Authenticators -/

/-- What the fuses say about the mode. -/
def FuseBank.selection (bank : FuseBank) : Except Error FusedMode :=
  match bank.info with
  | none => .error .notFound
  | some info =>
    if 1 ≤ info.length ∧ info.length ≤ 4 then
      FusedMode.ofFuses bank.secure (UInt32.ofNat (ofLE info))
    else .error .invalid

theorem Board.ensures_readFusedMode_selection {fuses : FuseBank} {b : Board}
    (hb : b.Faultless fuses) :
    Ensures Board.readFusedMode b (fun f b' => fuses.selection = .ok f ∧ b.Recalls b')
      (fun e b' => fuses.selection = .error e ∧ b.Recalls b') := by
  obtain ⟨rfl, hfaults⟩ := hb
  have hquery : ∀ r, b.Recalls (b.record (.query .bootSecurityInfo r)) :=
    fun r => .recordAll b (u := [.query .bootSecurityInfo r]) (by simp [Event.isRemembered])
  have hread : ∀ r n r', b.Recalls
      ((b.record (.query .bootSecurityInfo r)).record (.read .bootSecurityInfo n r')) := by
    intro r n r'
    rw [record_record]
    exact .recordAll b (by simp [Event.isRemembered])
  have hfaults' : ∀ e : Event, (b.record e).faults = [] := fun _ => hfaults
  have hfuses : ∀ e : Event, (b.record e).fuses = b.fuses := fun _ => rfl
  simp only [readFusedMode, readWord, query, read, ensures_bind, ensures_get, ensures_pure,
    ensures_require, ensures_perform_of_faults hfaults, ensures_perform_of_faults (hfaults' _),
    FuseBank.size, FuseBank.read, FuseBank.field?, FuseBank.selection, hfuses]
  cases b.fuses.info with
  | none => exact ⟨rfl, hquery _⟩
  | some info =>
    refine ⟨fun hsize => ?_, fun hsize => ⟨if_neg hsize, hquery _⟩⟩
    simp only [if_pos hsize, if_true]
    cases FusedMode.ofFuses b.fuses.secure (UInt32.ofNat (ofLE info)) with
    | ok f => exact ⟨rfl, hread _ _ _⟩
    | error e => exact ⟨rfl, hread _ _ _⟩

namespace Authenticator

variable {a a' : Authenticator} {chip : Chip} {fuses : FuseBank} {n : Nat} {past : Trace}

/-- What an authenticator remembers is what it would find out. -/
structure Sound (chip : Chip) (fuses : FuseBank) (a : Authenticator) : Prop where
  chip : a.chip = chip
  board : a.board.Faultless fuses
  cache : a.platform.cache.Sound
  fusedMode : ∀ f, a.fusedMode = some f → fuses.selection = .ok f

theorem sound_fresh (chip : Chip) (fuses : FuseBank) (state : Rollback.State) :
    (fresh chip (.fresh fuses []) state).Sound chip fuses where
  chip := rfl
  board := ⟨rfl, rfl⟩
  cache := fun _ hentry => absurd hentry List.not_mem_nil
  fusedMode := fun _ => nofun

/-- From one state of an authenticator to the other, calls have been made that may be spared by who
remembers. -/
structure Recalls (chip : Chip) (fuses : FuseBank) (a a' : Authenticator) : Prop where
  board : a.board.Recalls a'.board
  sound : a'.Sound chip fuses

theorem ensures_decodeFuses (ha : a.Sound chip fuses) :
    Ensures decodeFuses a (fun f a' => fuses.selection = .ok f ∧ a.Recalls chip fuses a')
      (fun e a' => fuses.selection = .error e ∧ a.Recalls chip fuses a') := by
  simp only [decodeFuses, ensures_bind, ensures_get]
  cases hmode : a.fusedMode with
  | some f => exact ⟨ha.fusedMode f hmode, .refl _, ha⟩
  | none =>
    have hset : ∀ {b : Board}, a.board.Recalls b → ∀ mode : Option FusedMode,
        (∀ f, mode = some f → fuses.selection = .ok f) →
        a.Recalls chip fuses { a.setBoard b with fusedMode := mode } := by
      rintro b hb mode hselection
      refine ⟨hb, ha.chip, ?_, ha.cache, hselection⟩
      obtain ⟨u, rfl, -⟩ := hb
      exact ⟨ha.board.fuses, ha.board.faults⟩
    simp only [onBoard, ensures_bind, ensures_focus, ensures_modify, ensures_pure]
    refine (Board.ensures_readFusedMode_selection ha.board).mono ?_ ?_
    · rintro f b ⟨hselection, hb⟩
      refine ⟨hselection, hset hb (some f) ?_⟩
      rintro _ ⟨⟩
      exact hselection
    · rintro e b ⟨hselection, hb⟩
      refine ⟨hselection, hset hb a.fusedMode ?_⟩
      simp [hmode]

/-- Two authenticators that remember nothing wrong, on boards that have been used for the same. -/
structure Beside (chip : Chip) (fuses : FuseBank) (n : Nat) (past : Trace) (a a' : Authenticator) :
    Prop where
  sound : a.Sound chip fuses
  sound' : a'.Sound chip fuses
  board : Board.Beside fuses n past a.board a'.board

theorem lockstep_decodeFuses :
    Lockstep (Beside chip fuses n past) Eq decodeFuses decodeFuses := by
  intro a a' h
  refine .of_ensures (ensures_decodeFuses h.sound) (ensures_decodeFuses h.sound') ?_
  intro t t' ht ht'
  exact ⟨ht.sound, ht'.sound, h.board.recalls ht.board ht'.board⟩

theorem lockstep_modeSource (type : BinaryType) :
    Lockstep (Beside chip fuses n past) Eq (modeSource type) (modeSource type) := by
  refine lockstep_get.bind fun a a' h => ?_
  rw [h.sound.chip, h.sound'.chip]
  split
  · exact lockstep_pure rfl
  · exact lockstep_decodeFuses.bind fun _ _ hf => lockstep_pure (congrArg ModeSource.fused hf)

theorem lockstep_openSession (type : BinaryType) (dest : Bytes) :
    Lockstep (Beside chip fuses n past) (afterwards fuses n past).Sessions (openSession type dest)
      (openSession type dest) := by
  refine (lockstep_require _ _).bind fun _ _ _ => (lockstep_modeSource type).bind ?_
  rintro source _ rfl
  refine lockstep_get.bind fun a a' h => ?_
  simp only [Session.start, Window.ofCapacity, h.sound.chip, h.sound'.chip]
  split
  · exact lockstep_throw _
  · exact lockstep_pure (.mk (fun _ _ => trivial) ⟨h.board, h.sound.cache, h.sound'.cache⟩ .empty)

/-- Visits with alike sessions and the same answers. -/
structure Visit.Alike (L : Likeness) (v v' : Visit) : Prop where
  opened : L.Sessions v.opened v'.opened
  transcript : List.Forall₂ (fun x x' => x'.1 = x.1 ∧ L.Sessions x.2 x'.2) v.transcript v'.transcript

theorem lockstep_visit (type : BinaryType) (dest : Bytes) (asked : List Session.Request) :
    Lockstep (Beside chip fuses n past) (Visit.Alike (afterwards fuses n past))
      (visit type dest asked) (visit type dest asked) := by
  have hL := lawful_afterwards fuses n past
  have hverdict : ∀ c c', (afterwards fuses n past).Operations c c' → c'.verdict = c.verdict := by
    rintro c _ ⟨_, _, rfl⟩
    rfl
  refine (lockstep_openSession type dest).bind fun s s' hs => ?_
  refine (lockstep_modify fun a a' h => ?_).bind fun _ _ _ =>
    lockstep_pure ⟨hs, hL.transcript hverdict hs asked⟩
  rw [Visit.last_eq, Visit.last_eq]
  have hend := (hL.release (hL.after hverdict hs asked)).platform
  exact ⟨⟨h.sound.chip, hend.board.faultless, hend.cache.1, h.sound.fusedMode⟩,
    ⟨h.sound'.chip, hend.board.faultless', hend.cache.2, h.sound'.fusedMode⟩, hend.board⟩

/-! ### Flows of sessions -/

/-- Next to a fresh authenticator, a sound one has its calls so far as its past. -/
theorem Sound.beside_fresh (ha : a.Sound chip fuses) (state : Rollback.State) :
    Beside chip fuses a.board.nextId a.board.trace (fresh chip (.fresh fuses []) state) a where
  sound := sound_fresh chip fuses state
  sound' := ha
  board := ⟨⟨rfl, rfl⟩, ha.board, (Nat.zero_add _).symm, [], (List.append_nil _).symm, rfl⟩

/-- The request is for a session, or for the sub-keys to be forgotten. -/
def Request.IsPlain : Request → Prop
  | .session .. | .clearKeyCache => True
  | _ => False

theorem Sound.answer (ha : a.Sound chip fuses) {r : Request} (hr : r.IsPlain) :
    (a.answer r).2.Sound chip fuses := by
  cases r with
  | session type dest asked =>
    exact (lockstep_visit type dest asked _ a (ha.beside_fresh .disabled)).final.sound'
  | clearKeyCache =>
    exact ⟨ha.chip, ha.board, fun _ hentry => absurd hentry List.not_mem_nil, ha.fusedMode⟩
  | checkRollback | enforceRollback | bypassRollback | replaceFuses | hardwareLevel => cases hr

/-- The same answers to the request for a session: it is refused with the same error, or all that it
answers is the same and so is all that is to be seen of it meanwhile. -/
inductive Answer.Resembles : Answer → Answer → Prop where
  | refused (e : Error) : Resembles (.session (.error e)) (.session (.error e))
  | opened {v v' : Visit} (hopened : v.opened.Resembles v'.opened)
      (htranscript : List.Forall₂ (fun x x' => x'.1 = x.1 ∧ x.2.Resembles x'.2) v.transcript
        v'.transcript) : Resembles (.session (.ok v)) (.session (.ok v'))

/-- **Sessions do not depend on the ones before them.** Where nothing but sessions is asked of an
authenticator, and no fault strikes, each of them is what it would be on a fresh authenticator: it
gives the same answers and looks the same all along, and the calls made for it are the same, too, but
for the numbers of the operations and for the calls that get what may be remembered. -/
theorem sessions_independent {chip : Chip} {fuses : FuseBank} {state : Rollback.State}
    {requests : List Request} (hplain : ∀ r ∈ requests, r.IsPlain) {t : Turn}
    (ht : t ∈ (fresh chip (.fresh fuses []) state).turns requests) {type : BinaryType}
    {dest : Bytes} {asked : List Session.Request} (hrequest : t.request = .session type dest asked) :
    let alone : Turn := ⟨fresh chip (.fresh fuses []) state, t.request⟩
    alone.answer.Resembles t.answer ∧
      t.calls.essential = alone.calls.essential.map (Event.shift t.before.board.nextId) := by
  intro alone
  have hsound : t.before.Sound chip fuses := by
    refine turns_related (R := fun a a' => a.Sound chip fuses → a'.Sound chip fuses)
      (fun _ => id) (fun h h' => h' ∘ h) ?_ ht (sound_fresh chip fuses state)
    exact fun a r hr ha => ha.answer (hplain r hr)
  have hends := lockstep_visit type dest asked _ _ (hsound.beside_fresh state)
  have hL := lawful_afterwards fuses t.before.board.nextId t.before.board.trace
  obtain ⟨before, request⟩ := t
  cases hrequest
  constructor
  · change Answer.Resembles
      (.session ((visit type dest asked).outcome (fresh chip (.fresh fuses []) state)))
      (.session ((visit type dest asked).outcome before))
    obtain ⟨v, v', hok, hok', hv⟩ | ⟨e, herror, herror'⟩ := hends.outcome
    · rw [hok, hok']
      exact .opened (hv.opened.resembles hL)
        (hv.transcript.imp fun _ _ hx => ⟨hx.1, hx.2.resembles hL⟩)
    · rw [herror, herror']
      exact .refused e
  · obtain ⟨u, hu, hsame⟩ := hends.final.board.trace
    rw [Turn.calls_eq (t := ⟨before, .session type dest asked⟩) hu]
    exact hsame

/-- A second visit to a part that authenticates with its CMAC key asks for less, and is no different. -/
theorem sessions_independent_cached :
    let part := fresh .t194 (.fresh { FuseBank.blank with info := some [1] } []) .disabled
    let visit := Request.session .mb1 [0] [.push (Header.blank .symmetric 0).bytes true, .finalize]
    let alone : Turn := ⟨part, visit⟩
    ∃ t, (part.turns [visit, visit])[1]? = some t ∧
      t.calls.length < alone.calls.length ∧ alone.answer.Resembles t.answer ∧
      t.calls.essential = alone.calls.essential.map (Event.shift t.before.board.nextId) := by
  intro part visit alone
  have hplain : ∀ r ∈ [visit, visit], r.IsPlain := by simp [visit, Request.IsPlain]
  refine ⟨_, rfl, by decide +kernel, ?_⟩
  exact sessions_independent hplain (List.mem_cons_of_mem _ List.mem_cons_self) rfl

end Authenticator

end SecureBoot
