import SecureBoot.Proofs.Operations

/-!
Setting the operations of an envelope up. What a session may use is fixed beforehand: the sub-keys
that a CMAC gets are those that the cache holds for its slot, or else those that the engine derives
(`SubkeyCache.effective`), and no call changes that.

`Platform.ensures_openContexts` says that operations are set up for the jobs of the envelope, in
order, with nothing fed to them. A failure undoes what has been done (`Trace.Undone`): what has been
set up is closed again, so that exactly the operations which were open before are open afterwards
(`Trace.Undone.live_iff`).
-/

namespace SecureBoot

/-! ### Calls that leave the open operations alone -/

namespace Trace

/-- The calls use and close nothing. -/
def Idle (u : Trace) : Prop := ∀ e ∈ u, e.subject? = none

/-- The calls set operations up only to close them again, and use no other ones. -/
structure Undone (u : Trace) : Prop where
  closed : ∀ op ∈ u.operations, .close op.id ∈ u
  own : ∀ e ∈ u, ∀ id, e.subject? = some id → u.Opened id

variable {t u v : Trace} {id : Nat}

theorem Idle.subject_ne (h : u.Idle) {e : Event} (he : e ∈ u) : e.subject? ≠ some id := by
  rw [h e he]
  exact nofun

theorem Idle.fed_eq_nil (h : u.Idle) (id : Nat) : u.fed id = [] :=
  fed_eq_nil_of_subject fun _ he => h.subject_ne he

theorem Idle.close_not_mem (h : u.Idle) : .close id ∉ u := fun hc => h.subject_ne hc rfl

theorem Idle.append (hu : u.Idle) (hv : v.Idle) : Idle (u ++ v) := fun e he =>
  (List.mem_append.mp he).elim (hu e) (hv e)

theorem Idle.undone (h : u.Idle) (hops : u.operations = []) : u.Undone where
  closed := by simp [hops]
  own := fun _ he _ hs => absurd hs (h.subject_ne he)

/-- Setting one operation up, undoing what came after it and closing it undoes it all. -/
theorem Undone.close_last {op : Operation} (hv : v.Undone) (hu : u.Idle)
    (hops : u.operations = [op]) : Undone (u ++ v ++ [.close op.id]) := by
  have hall : operations (u ++ v ++ [.close op.id]) = op :: v.operations := by
    rw [operations_append, operations_append, hops]
    exact List.append_nil _
  constructor
  · rw [hall]
    refine List.forall_mem_cons.mpr ⟨by simp, fun op' hop' => ?_⟩
    exact List.mem_append_left _ (List.mem_append_right _ (hv.closed op' hop'))
  · intro e he id hs
    rw [opened_iff_mem, hall, List.map_cons, List.mem_cons]
    rcases List.mem_append.mp he with he | he
    · rcases List.mem_append.mp he with he | he
      · exact absurd hs (hu.subject_ne he)
      · exact .inr (opened_iff_mem.mp (hv.own e he id hs))
    · obtain rfl := List.mem_singleton.mp he
      exact .inl (Option.some.inj hs).symm

/-- Setting operations up, using them and closing them all undoes it. -/
theorem Undone.close_all {contexts : List Context} (hu : u.Idle)
    (hops : u.operations = contexts.map Context.operation)
    (hv : v.Uses (contexts.map Context.id)) :
    Undone (u ++ v ++ contexts.map fun c => .close c.id) := by
  have hall : operations (u ++ v ++ contexts.map fun c => .close c.id) =
      contexts.map Context.operation := by
    rw [operations_append, operations_append, operations_closes, hv.operations_eq_nil,
      List.append_nil, List.append_nil, hops]
  constructor
  · intro op hop
    rw [hall] at hop
    obtain ⟨c, hc, rfl⟩ := List.mem_map.mp hop
    exact List.mem_append_right _ (List.mem_map_of_mem hc)
  · intro e he id hs
    rw [opened_iff_mem, hall, List.map_map]
    rcases List.mem_append.mp he with he | he
    · rcases List.mem_append.mp he with he | he
      · exact absurd hs (hu.subject_ne he)
      · obtain ⟨id', hid', hs', -⟩ := hv e he
        cases hs.symm.trans hs'
        exact hid'
    · obtain ⟨c, hc, rfl⟩ := List.mem_map.mp he
      cases hs
      exact List.mem_map_of_mem hc

/-- An operation is set up only once. -/
theorem Orderly.not_opened_both (h : Orderly (t ++ u)) (ht : t.Opened id) : ¬ u.Opened id := by
  intro hu
  have hnodup := h.ids_nodup
  rw [operations_append, List.map_append, List.nodup_append] at hnodup
  exact hnodup.2.2 id (opened_iff_mem.mp ht) id (opened_iff_mem.mp hu) rfl

/-- Operations that have been set up since are new, and told apart by their numbers. -/
theorem Orderly.fresh_contexts {contexts : List Context} (h : Orderly (t ++ u))
    (hops : u.operations = contexts.map Context.operation) :
    (contexts.map Context.id).Nodup ∧ ∀ c ∈ contexts, ¬ t.Opened c.id := by
  constructor
  · have hall := h.ids_nodup
    rw [operations_append, hops, List.map_append, List.map_map] at hall
    exact hall.of_append_right
  · intro c hc hold
    apply h.not_opened_both hold
    rw [opened_iff_mem, hops, List.map_map]
    exact List.mem_map_of_mem hc

theorem Undone.subject_ne (h : u.Undone) (ho : Orderly (t ++ u)) (hid : t.Opened id) {e : Event}
    (he : e ∈ u) : e.subject? ≠ some id :=
  fun hs => ho.not_opened_both hid (h.own e he id hs)

theorem Undone.live_iff (h : u.Undone) (ho : Orderly (t ++ u)) :
    Live (t ++ u) id ↔ t.Live id := by
  constructor
  · rintro ⟨hopened, hclose⟩
    rcases opened_append.mp hopened with hid | ⟨op, hop, rfl⟩
    · exact ⟨hid, fun hc => hclose (List.mem_append_left _ hc)⟩
    · exact absurd (List.mem_append_right t (h.closed op hop)) hclose
  · rintro ⟨hopened, hclose⟩
    refine ⟨hopened.append_left _, fun hc => ?_⟩
    rcases List.mem_append.mp hc with hc | hc
    · exact hclose hc
    · exact h.subject_ne ho hopened hc rfl

end Trace

section Frames

variable {t u : Trace} {c : Context} {j : Job} {data : Bytes}

theorem Context.Fed.frame_idle (h : c.Fed t j data) (hu : u.Idle) : c.Fed (t ++ u) j data :=
  h.append (hu.fed_eq_nil _) hu.close_not_mem

theorem Context.Fed.frame_undone (h : c.Fed t j data) (hu : u.Undone) (ho : Trace.Orderly (t ++ u)) :
    c.Fed (t ++ u) j data :=
  h.append (Trace.fed_eq_nil_of_subject fun _ he => hu.subject_ne ho h.live.1 he)
    fun hc => hu.subject_ne ho h.live.1 hc rfl

theorem Serving.frame_idle {contexts : List Context} {strands : List Strand}
    (h : Serving t contexts strands) (hu : u.Idle) : Serving (t ++ u) contexts strands :=
  List.Forall₂.imp (fun _ _ hfed => Context.Fed.frame_idle hfed hu) h

theorem Serving.frame_undone {contexts : List Context} {strands : List Strand}
    (h : Serving t contexts strands) (hu : u.Undone) (ho : Trace.Orderly (t ++ u)) :
    Serving (t ++ u) contexts strands :=
  List.Forall₂.imp (fun _ _ hfed => Context.Fed.frame_undone hfed hu ho) h

end Frames

/-! ### Sub-keys -/

/-- The sub-keys that a use of the slot will get. -/
def SubkeyCache.effective (cache : SubkeyCache) (slot : KeySlot) : Subkeys :=
  (cache.get? slot).getD (.ofSlot slot)

theorem SubkeyCache.effective_touch (cache : SubkeyCache) (slot : KeySlot) (k : Subkeys) :
    (cache.touch slot k).effective slot = k := by
  simp [effective, touch, get?, capacity]

namespace Platform

variable {start : Board} {t : Trace} {p : Platform}

theorem ensures_subkeys (hs : Board.Since start p.board t) (slot : KeySlot) :
    Step.Ensures (subkeys slot) p
      (fun k p' => k = p.cache.effective slot ∧ p'.cache.effective slot = p.cache.effective slot ∧
        ∃ u : Trace, Board.Since start p'.board (t ++ u) ∧ u.Idle ∧ u.operations = [])
      (fun _ p' => start.Faulty ∧ p'.cache = p.cache ∧
        ∃ u : Trace, Board.Since start p'.board (t ++ u) ∧ u.Idle ∧ u.operations = []) := by
  have hidle : ∀ r, Trace.Idle [.derive slot r] := by
    intro r e he
    obtain rfl := List.mem_singleton.mp he
    rfl
  simp only [subkeys, findSubkeys, Step.ensures_bind, Step.ensures_get]
  cases hget : p.cache.get? slot with
  | some k =>
    simp only [Step.ensures_pure, Step.ensures_modify]
    have heff : p.cache.effective slot = k := by rw [SubkeyCache.effective, hget, Option.getD_some]
    refine ⟨heff.symm, ?_, [], by rwa [List.append_nil], ?_, rfl⟩
    · rw [SubkeyCache.effective_touch, heff]
    · exact fun _ he => absurd he List.not_mem_nil
  | none =>
    simp only [onBoard, Step.ensures_focus, Step.ensures_pure, Step.ensures_modify]
    have heff : p.cache.effective slot = .ofSlot slot := by
      rw [SubkeyCache.effective, hget, Option.getD_none]
    apply (hs.ensures_deriveSubkeys slot).mono
    · rintro k b' ⟨rfl, hb'⟩
      refine ⟨heff.symm, ?_, _, hb', hidle _, rfl⟩
      rw [SubkeyCache.effective_touch, heff]
    · rintro e b' ⟨hf, hb'⟩
      exact ⟨hf, trivial, _, hb', hidle _, rfl⟩

/-! ### Operations -/

section Envelope

variable {ring : KeyRing} {e : Envelope}

theorem ensures_subkeysFor (hs : Board.Since start p.board t)
    (hcache : p.cache.effective ring.keys.cmac = ring.subkeys) (algorithm : Algorithm) :
    Step.Ensures
      (subkeysFor algorithm (e.mode.chosenKey ring.keys e.header.keyIndex algorithm)) p
      (fun k p' => k = (e.job ring algorithm).setup.subkeys ∧
        p'.cache.effective ring.keys.cmac = ring.subkeys ∧
        ∃ u : Trace, Board.Since start p'.board (t ++ u) ∧ u.Idle ∧ u.operations = [])
      (fun _ p' => start.Faulty ∧ p'.cache.effective ring.keys.cmac = ring.subkeys ∧
        ∃ u : Trace, Board.Since start p'.board (t ++ u) ∧ u.Idle ∧ u.operations = []) := by
  by_cases halg : algorithm = .aesCmac
  · subst halg
    simp only [subkeysFor, CryptoMode.chosenKey, Step.ensures_map]
    apply (ensures_subkeys hs ring.keys.cmac).mono
    · rintro k p' ⟨rfl, hcache', hu⟩
      exact ⟨by rw [hcache]; rfl, hcache'.trans hcache, hu⟩
    · rintro err p' ⟨hf, hcache', hu⟩
      exact ⟨hf, by rw [hcache', hcache], hu⟩
  · have hnone : (e.job ring algorithm).setup.subkeys = none := if_neg halg
    have hpure : subkeysFor algorithm (e.mode.chosenKey ring.keys e.header.keyIndex algorithm) =
        pure none := by
      cases algorithm <;> first | rfl | exact absurd rfl halg
    rw [hpure, Step.ensures_pure]
    exact ⟨hnone.symm, hcache, [], by rwa [List.append_nil], fun _ he => absurd he List.not_mem_nil,
      rfl⟩

theorem ensures_openContext (hs : Board.Since start p.board t)
    (hcache : p.cache.effective ring.keys.cmac = ring.subkeys) {algorithm : Algorithm}
    (hkey : e.mode.key ring.keys e.header.keyIndex algorithm =
      .ok (e.mode.chosenKey ring.keys e.header.keyIndex algorithm)) :
    Step.Ensures (openContext e.mode ring.keys e.header algorithm) p
      (fun c p' => p'.cache.effective ring.keys.cmac = ring.subkeys ∧
        ∃ u : Trace, Board.Since start p'.board (t ++ u) ∧ u.Idle ∧
          u.operations = [c.operation] ∧ c.Fed (t ++ u) (e.job ring algorithm) [])
      (fun _ p' => start.Faulty ∧ p'.cache.effective ring.keys.cmac = ring.subkeys ∧
        ∃ u : Trace, Board.Since start p'.board (t ++ u) ∧ u.Idle ∧ u.operations = []) := by
  simp only [openContext, hkey, Step.ensures_bind, Step.ensures_ofExcept_ok, onBoard,
    Step.ensures_focus]
  refine (ensures_subkeysFor hs hcache algorithm).mono ?_ fun _ _ hbad => hbad
  rintro k p' ⟨rfl, hcache', u, hp', hu, hops⟩
  have hinit : ∀ r, Trace.Idle [.init algorithm (e.job ring algorithm).setup r] := by
    intro r e he
    obtain rfl := List.mem_singleton.mp he
    rfl
  have hslot : algorithm = .aesCbcDecrypt → ∃ slot, (e.job ring algorithm).setup.key = .slot slot :=
    fun halg => ⟨e.mode.decryptSlot ring.keys, by rw [halg, e.key_job_decrypt]⟩
  apply (hp'.ensures_start hslot).mono
  · rintro c b' ⟨rfl, hb'⟩
    have hnew : ¬ Trace.Opened (t ++ u) p'.board.nextId :=
      fun hid => Nat.lt_irrefl _ (hp'.opened_lt hid)
    refine ⟨hcache', u ++ [.init algorithm (e.job ring algorithm).setup (.ok p'.board.nextId)],
      by rwa [← List.append_assoc], hu.append (hinit _), ?_, ?_⟩
    · rw [Trace.operations_append, hops]
      rfl
    · exact
        { job_eq := rfl
          mem := by
            rw [← List.append_assoc, Trace.operations_append]
            exact List.mem_append_right _ (List.mem_singleton_self _)
          not_closed := by
            rw [← List.append_assoc]
            exact fun hc => (List.mem_append.mp hc).elim (hp'.orderly.close_not_mem hnew)
              (hinit _).close_not_mem
          fed_eq := by
            rw [← List.append_assoc, Trace.fed_append, (hinit _).fed_eq_nil, List.append_nil]
            exact hp'.orderly.fed_eq_nil hnew
          fed := rfl
          digest := by split <;> rfl }
  · rintro err b' ⟨hf, hb'⟩
    refine ⟨hf, hcache', u ++ [.init algorithm (e.job ring algorithm).setup (.error err)],
      by rwa [← List.append_assoc], hu.append (hinit _), ?_⟩
    rw [Trace.operations_append, hops]
    rfl

/-- **Setting up an envelope**: one operation for each of its jobs, in order, or none at all. -/
theorem ensures_openContexts (hs : Board.Since start p.board t)
    (hcache : p.cache.effective ring.keys.cmac = ring.subkeys) {algorithms : List Algorithm}
    (hkey : ∀ algorithm ∈ algorithms, e.mode.key ring.keys e.header.keyIndex algorithm =
      .ok (e.mode.chosenKey ring.keys e.header.keyIndex algorithm)) :
    Step.Ensures (openContexts e.mode ring.keys e.header algorithms) p
      (fun contexts p' => p'.cache.effective ring.keys.cmac = ring.subkeys ∧
        ∃ u : Trace, Board.Since start p'.board (t ++ u) ∧ u.Idle ∧
          u.operations = contexts.map Context.operation ∧
          Serving (t ++ u) contexts ((algorithms.map (e.job ring)).map Strand.bare))
      (fun _ p' => start.Faulty ∧ p'.cache.effective ring.keys.cmac = ring.subkeys ∧
        ∃ u : Trace, Board.Since start p'.board (t ++ u) ∧ u.Undone ∧ (∀ id, u.fed id = []) ∧
          u.operations.map Operation.toJob <+: algorithms.map (e.job ring)) := by
  induction algorithms generalizing p t with
  | nil =>
    exact ⟨hcache, [], by rwa [List.append_nil], fun _ he => absurd he List.not_mem_nil, rfl, .nil⟩
  | cons algorithm rest ih =>
    simp only [openContexts, Step.ensures_bind, Step.ensures_onError, Step.ensures_pure]
    apply (ensures_openContext hs hcache (hkey algorithm (List.mem_cons_self ..))).mono
    · rintro c p' ⟨hcache', u, hp', hu, hops, hc⟩
      have hkey' := fun a ha => hkey a (List.mem_cons_of_mem algorithm ha)
      apply (ih hp' hcache' hkey').mono
      · rintro contexts p'' ⟨hcache'', v, hp'', hv, hops', hserve⟩
        refine ⟨hcache'', u ++ v, by rwa [← List.append_assoc], hu.append hv, ?_, ?_⟩
        · rw [Trace.operations_append, hops, hops']
          rfl
        · rw [← List.append_assoc]
          exact .cons (hc.frame_idle hv) hserve
      · rintro err p'' ⟨hf, hcache'', v, hp'', hv, hfed, hjobs⟩
        have hlive := (hc.frame_undone hv hp''.orderly).live
        have hclosed := hp''.closeAll (List.forall_mem_singleton.mpr hlive)
          (List.pairwise_singleton _ _)
        refine ⟨hf, hcache'', u ++ v ++ [.close c.id], ?_, hv.close_last hu hops, ?_, ?_⟩
        · rw [← List.append_assoc, ← List.append_assoc]
          exact hclosed
        · intro id
          rw [Trace.fed_append, Trace.fed_append, hu.fed_eq_nil, hfed]
          rfl
        · have hall : Trace.operations (u ++ v ++ [.close c.id]) = c.operation :: v.operations := by
            rw [Trace.operations_append, Trace.operations_append, hops]
            exact List.append_nil _
          rw [hall]
          exact List.cons_prefix_cons.mpr ⟨hc.job_eq, hjobs⟩
    · rintro err p' ⟨hf, hcache', u, hp', hu, hops⟩
      refine ⟨hf, hcache', u, hp', hu.undone hops, hu.fed_eq_nil, ?_⟩
      rw [hops]
      exact List.nil_prefix

end Envelope

end Platform

end SecureBoot
