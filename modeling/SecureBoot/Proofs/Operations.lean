import Mathlib.Data.List.Nodup
import SecureBoot.Proofs.Envelope

/-!
What the operations of one header do to a board, call for call. `Context.Fed` ties an open operation
to the record: it has been fed exactly some data, and its own account of that data is right.
`Serving` says this of all operations of a header, each with its strand.

Each of the functions that work on operations has one statement, which covers its failures too:
`ensures_openContexts` (setting up), `ensures_feedSection` (the signed section), `Bench.ensures_run`
(payload) and `ensures_finalizeAll` (verdicts). A failure leaves every operation with a beginning
of what it was to be fed (`Operation.Keeps`).
-/

namespace SecureBoot

/-! ### Calls on some operations -/

/-- The calls feed or ask the given operations, and do nothing else. -/
def Trace.Uses (u : Trace) (ids : List Nat) : Prop :=
  ∀ e ∈ u, ∃ id ∈ ids, e.subject? = some id ∧ e ≠ .close id

namespace Trace

variable {u v : Trace} {ids : List Nat} {id : Nat}

theorem uses_nil (ids : List Nat) : Uses [] ids := fun _ he => absurd he List.not_mem_nil

theorem Uses.mono {ids' : List Nat} (h : u.Uses ids) (hsub : ids ⊆ ids') : u.Uses ids' := by
  intro e he
  obtain ⟨id, hid, hs⟩ := h e he
  exact ⟨id, hsub hid, hs⟩

theorem Uses.append (hu : u.Uses ids) (hv : v.Uses ids) : Uses (u ++ v) ids := by
  intro e he
  rcases List.mem_append.mp he with h | h
  · exact hu e h
  · exact hv e h

theorem Uses.operations_eq_nil (h : u.Uses ids) : u.operations = [] := by
  apply List.filterMap_eq_nil_iff.mpr
  intro e he
  obtain ⟨id, -, hs, -⟩ := h e he
  cases e <;> first | rfl | cases hs

theorem Uses.close_not_mem (h : u.Uses ids) : .close id ∉ u := by
  intro hmem
  obtain ⟨id', -, hs, hne⟩ := h _ hmem
  cases hs
  exact hne rfl

theorem Uses.fed_eq_nil (h : u.Uses ids) (hid : id ∉ ids) : u.fed id = [] := by
  apply fed_eq_nil_of_subject
  intro e he hs
  obtain ⟨id', hid', hs', -⟩ := h e he
  rw [hs] at hs'
  cases hs'
  exact hid hid'

theorem Orderly.operation_unique {t : Trace} (h : t.Orderly) {op op' : Operation}
    (hop : op ∈ t.operations) (hop' : op' ∈ t.operations) (hid : op.id = op'.id) : op = op' :=
  List.inj_on_of_nodup_map h.ids_nodup hop hop' hid

end Trace

/-! ### One operation -/

/-- An operation has been fed a beginning of what it is to be fed, and nothing else. -/
def Operation.Keeps (t : Trace) (op : Operation) (s : Strand) : Prop :=
  op.toJob = s.job ∧ t.fed op.id <+: s.input

/-- The operations are those of the first strands, in order, and each keeps to its strand. -/
def Trace.Honours (t : Trace) (ops : List Operation) (strands : List Strand) : Prop :=
  ∃ r, r <+: strands ∧ List.Forall₂ (Operation.Keeps t) ops r

section Honours

variable {t u : Trace} {op : Operation} {ops : List Operation} {s s' : Strand}
  {strands strands' : List Strand}

theorem Operation.Keeps.grow (h : op.Keeps t s) (hs : s.Grows s') : op.Keeps t s' :=
  ⟨h.1.trans hs.1, h.2.trans hs.2⟩

theorem Operation.Keeps.append (h : op.Keeps t s) (hu : u.fed op.id = []) : op.Keeps (t ++ u) s := by
  refine ⟨h.1, ?_⟩
  rw [Trace.fed_append, hu, List.append_nil]
  exact h.2

theorem Operation.keeps_grow (h : List.Forall₂ (Operation.Keeps t) ops strands)
    (hs : List.Forall₂ Strand.Grows strands strands') :
    List.Forall₂ (Operation.Keeps t) ops strands' := by
  induction h generalizing strands' with
  | nil =>
    cases hs
    exact .nil
  | cons hkeep _ ih =>
    cases hs with
    | cons hhead htail => exact .cons (hkeep.grow hhead) (ih htail)

namespace Trace.Honours

theorem nil (t : Trace) (strands : List Strand) : t.Honours [] strands :=
  ⟨[], List.nil_prefix, .nil⟩

theorem of_forall₂ (h : List.Forall₂ (Operation.Keeps t) ops strands) : t.Honours ops strands :=
  ⟨strands, List.prefix_refl _, h⟩

theorem begin_with (h : t.Honours ops strands) (hs : Begins strands strands') :
    t.Honours ops strands' := by
  obtain ⟨r, ⟨rest, rfl⟩, hkeeps⟩ := h
  obtain ⟨r', hr', hgrows⟩ := hs
  have hfirst : List.Forall₂ Strand.Grows r (r'.take r.length) :=
    (List.forall₂_take_append r' r rest (List.Forall₂.flip hgrows)).flip
  exact ⟨r'.take r.length, (List.take_prefix ..).trans hr', Operation.keeps_grow hkeeps hfirst⟩

theorem append (h : t.Honours ops strands) (hu : ∀ op ∈ ops, u.fed op.id = []) :
    Honours (t ++ u) ops strands := by
  obtain ⟨r, hr, hkeeps⟩ := h
  refine ⟨r, hr, ?_⟩
  clear hr
  induction hkeeps with
  | nil => exact .nil
  | cons hkeep _ ih =>
    exact .cons (hkeep.append (hu _ (List.mem_cons_self ..)))
      (ih fun op hop => hu op (List.mem_cons_of_mem _ hop))

theorem cons_forall₂ {ops' : List Operation} (h : List.Forall₂ (Operation.Keeps t) ops strands)
    (h' : t.Honours ops' strands') : t.Honours (ops ++ ops') (strands ++ strands') := by
  obtain ⟨r, hr, hkeeps⟩ := h'
  exact ⟨strands ++ r, (List.prefix_append_right_inj _).mpr hr, List.rel_append h hkeeps⟩

/-- Operations that have not been fed anything are the first of any that they are set up for. -/
theorem of_jobs {jobs : List Job} (hjobs : ops.map Operation.toJob <+: jobs)
    (hfed : ∀ op ∈ ops, t.fed op.id = []) (h : Header) (payload : Bytes) :
    t.Honours ops (h.strands jobs payload) := by
  have hbare : t.Honours ops (jobs.map Strand.bare) := by
    refine ⟨(ops.map Operation.toJob).map Strand.bare, hjobs.map _, ?_⟩
    rw [List.map_map, List.forall₂_map_right_iff, List.forall₂_same]
    exact fun op hop => ⟨rfl, hfed op hop ▸ List.nil_prefix⟩
  exact hbare.begin_with (.of_forall₂ (h.bare_prefix jobs payload))

end Trace.Honours

end Honours

namespace Context

def job (c : Context) : Job := ⟨c.algorithm, c.setup⟩

def operation (c : Context) : Operation := ⟨c.job, c.id⟩

/-- The operation is open, it has been fed exactly `data`, and it knows what it has been fed. -/
structure Fed (t : Trace) (c : Context) (j : Job) (data : Bytes) : Prop where
  job_eq : c.job = j
  mem : c.operation ∈ t.operations
  not_closed : .close c.id ∉ t
  fed_eq : t.fed c.id = data
  fed : c.fed = data.length
  digest : c.digest = if j.algorithm.verifies then fnv fnvBasis data else fnvBasis

section Fed

variable {t u : Trace} {c : Context} {j : Job} {data more : Bytes}

theorem Fed.live (h : c.Fed t j data) : t.Live c.id := ⟨⟨c.operation, h.mem, rfl⟩, h.not_closed⟩

theorem Fed.append (h : c.Fed t j data) (hfed : u.fed c.id = []) (hclose : .close c.id ∉ u) :
    c.Fed (t ++ u) j data where
  job_eq := h.job_eq
  mem := by
    rw [Trace.operations_append]
    exact List.mem_append_left _ h.mem
  not_closed := fun hc => (List.mem_append.mp hc).elim h.not_closed hclose
  fed_eq := by rw [Trace.fed_append, hfed, List.append_nil, h.fed_eq]
  fed := h.fed
  digest := h.digest

/-- What is done with other operations leaves this one as it is. -/
theorem Fed.frame {ids : List Nat} (h : c.Fed t j data) (hu : u.Uses ids) (hid : c.id ∉ ids) :
    c.Fed (t ++ u) j data :=
  h.append (hu.fed_eq_nil hid) hu.close_not_mem

theorem Fed.keeps (h : c.Fed t j data) {s : Strand} (hjob : j = s.job) (hdata : data <+: s.input) :
    c.operation.Keeps t s :=
  ⟨h.job_eq.trans hjob, h.fed_eq ▸ hdata⟩

theorem Fed.operation_eq (h : c.Fed t j data) (ht : t.Orderly) {op : Operation}
    (hop : op ∈ t.operations) (hid : op.id = c.id) : op = c.operation :=
  ht.operation_unique hop h.mem hid

theorem Fed.feed (h : c.Fed t j data) (hmore : j.Takes data.length more) :
    ∃ c' : Context, c.feed more = .ok (c', j.transform data.length more) ∧
      c'.operation = c.operation ∧ c'.fed = (data ++ more).length ∧
      c'.digest = if j.algorithm.verifies then fnv fnvBasis (data ++ more) else fnvBasis := by
  obtain rfl := h.job_eq
  obtain ⟨-, hfit, hblock⟩ := hmore
  have hdigest : c.digest = if c.algorithm.verifies then fnv fnvBasis data else fnvBasis := h.digest
  have hfit' : ¬ c.setup.regionSize < c.fed + more.length := by
    rw [h.fed]
    exact Nat.not_lt.mpr hfit
  have hblock' : ¬ (c.algorithm = .aesCbcDecrypt ∧ c.fed + more.length < c.setup.regionSize ∧
      more.length % 16 ≠ 0) := by
    rw [h.fed]
    exact fun ⟨halg, hlt, hne⟩ => hne (hblock halg hlt)
  have hout : c.output more = c.job.transform data.length more := by
    rw [← h.fed]
    rfl
  refine ⟨{ c with
    fed := c.fed + more.length
    digest := if c.algorithm.verifies then fnv c.digest more else c.digest }, ?_, rfl, ?_, ?_⟩
  · unfold Context.feed
    simp only [if_neg hfit', if_neg hblock', hout]
  · simp [h.fed]
  · change (if c.algorithm.verifies then fnv c.digest more else c.digest) =
      if c.algorithm.verifies then fnv fnvBasis (data ++ more) else fnvBasis
    by_cases hv : c.algorithm.verifies
    · rw [if_pos hv, if_pos hv, hdigest, if_pos hv, fnv_append]
    · rw [if_neg hv, if_neg hv, hdigest, if_neg hv]

/-- The verdict of an operation that has been fed its region is that of its job. -/
theorem Fed.verdict_eq (h : c.Fed t j data) (hdata : data.length = j.setup.regionSize) :
    c.verdict = j.verdict data := by
  obtain rfl := h.job_eq
  have hregion : c.fed = c.setup.regionSize := h.fed.trans hdata
  have htag : c.algorithm.verifies → c.tag = c.job.tag data := by
    intro hv
    have hdigest : c.digest = fnv fnvBasis data := h.digest.trans (if_pos hv)
    rw [Context.tag, hdigest]
    rfl
  unfold Context.verdict Job.verdict
  rw [if_neg (fun hne => hne hregion)]
  by_cases hv : c.algorithm.verifies
  · rw [htag hv]
    simp [job, hv]
  · simp [job, hv]

theorem Fed.ensures_process (h : c.Fed t j data) {start b : Board} (hs : Board.Since start b t)
    (hmore : j.Takes data.length more) :
    Step.Ensures (Board.process c more) b
      (fun r b' => r.2 = j.transform data.length more ∧ r.1.operation = c.operation ∧
        ∃ u : Trace, Board.Since start b' (t ++ u) ∧ u.Uses [c.id] ∧
          r.1.Fed (t ++ u) j (data ++ more))
      (fun _ b' => start.Faulty ∧
        ∃ u : Trace, Board.Since start b' (t ++ u) ∧ u.Uses [c.id] ∧ c.Fed (t ++ u) j data) := by
  obtain ⟨c', hfeed, hop, hfed, hdigest⟩ := h.feed hmore
  have hjob : c'.job = c.job := congrArg Operation.toJob hop
  have hid : c'.id = c.id := congrArg Operation.id hop
  have huses : ∀ r, Trace.Uses [.process c.id more r] [c.id] := by
    intro r e he
    obtain rfl := List.mem_singleton.mp he
    exact ⟨c.id, List.mem_singleton_self _, rfl, by simp⟩
  have htakes : ∀ op ∈ t.operations, op.id = c.id → op.Takes (t.fed c.id).length more := by
    intro op hmem hopid
    rw [h.operation_eq hs.orderly hmem hopid, h.fed_eq]
    change c.job.Takes data.length more
    rwa [h.job_eq]
  apply (hs.ensures_process h.live htakes hfeed).mono
  · rintro _ b' ⟨rfl, hb'⟩
    refine ⟨rfl, hop, _, hb', huses _, ?_⟩
    exact
      { job_eq := hjob.trans h.job_eq
        mem := by
          rw [hop, Trace.operations_append]
          exact List.mem_append_left _ h.mem
        not_closed := by
          rw [hid]
          exact fun hc => (List.mem_append.mp hc).elim h.not_closed (huses _).close_not_mem
        fed_eq := by
          rw [hid, Trace.fed_append, h.fed_eq]
          simp [Trace.fed, Event.fedTo]
        fed := hfed
        digest := hdigest }
  · rintro e b' ⟨hf, hb'⟩
    refine ⟨hf, _, hb', huses _, h.append ?_ (huses _).close_not_mem⟩
    simp [Trace.fed, Event.fedTo]

end Fed

end Context

/-! ### The operations of a header -/

/-- Each operation has been fed exactly what its strand says. -/
def Serving (t : Trace) (contexts : List Context) (strands : List Strand) : Prop :=
  List.Forall₂ (fun c s => c.Fed t s.job s.input) contexts strands

namespace Serving

variable {t u : Trace} {contexts : List Context} {strands : List Strand}

theorem fed_of_mem (h : Serving t contexts strands) {c : Context} (hc : c ∈ contexts) :
    ∃ s ∈ strands, c.Fed t s.job s.input := by
  induction h with
  | nil => cases hc
  | cons hfed _ ih =>
    rcases List.mem_cons.mp hc with rfl | hc
    · exact ⟨_, List.mem_cons_self .., hfed⟩
    · obtain ⟨s, hs, hfed⟩ := ih hc
      exact ⟨s, List.mem_cons_of_mem _ hs, hfed⟩

theorem frame {ids : List Nat} (h : Serving t contexts strands) (hu : u.Uses ids)
    (hid : ∀ c ∈ contexts, c.id ∉ ids) : Serving (t ++ u) contexts strands := by
  induction h with
  | nil => exact .nil
  | cons hfed _ ih =>
    exact .cons (hfed.frame hu (hid _ (List.mem_cons_self ..)))
      (ih fun c hc => hid c (List.mem_cons_of_mem _ hc))

/-- What has been fed so far is a beginning of what there will be to feed. -/
theorem keeps (h : Serving t contexts strands) {strands' : List Strand}
    (hlater : List.Forall₂ Strand.Grows strands strands') :
    List.Forall₂ (Operation.Keeps t) (contexts.map Context.operation) strands' := by
  induction h generalizing strands' with
  | nil =>
    cases hlater
    exact .nil
  | cons hfed _ ih =>
    cases hlater with
    | cons hhead htail => exact .cons (hfed.keeps hhead.1 hhead.2) (ih htail)

theorem keeps_own (h : Serving t contexts strands) :
    List.Forall₂ (Operation.Keeps t) (contexts.map Context.operation) strands :=
  h.keeps (List.forall₂_same.mpr fun s _ => Strand.Grows.refl s)

end Serving

/-! ### Payload -/

section Run

variable {start : Board} {h : Header} {size : Nat}

theorem Job.transform_lead (j : Job) (h : Header) (p x : Bytes) :
    j.transform (h.lead j.algorithm ++ p).length x = j.transform p.length x := by
  cases hv : j.algorithm.verifies with
  | true => rw [transform_of_verifies hv, transform_of_verifies hv]
  | false => rw [Header.lead, hv, if_neg Bool.false_ne_true, List.nil_append]

/-- A job that is set up for its lead and `size` bytes of payload takes the next of them. -/
theorem Job.takes_of_lead {j : Job} {p x : Bytes}
    (hregion : j.setup.regionSize = (h.lead j.algorithm).length + size) (hx : x ≠ [])
    (hfit : p.length + x.length ≤ size)
    (hblock : j.algorithm = .aesCbcDecrypt → p.length + x.length < size → x.length % 16 = 0) :
    j.Takes (h.lead j.algorithm ++ p).length x := by
  refine ⟨hx, ?_, fun halg hlt => hblock halg ?_⟩
  · rw [hregion, List.length_append]
    omega
  · rw [hregion, List.length_append] at hlt
    omega

/-- **Running payload through operations**: each is fed what the ones before it have made of the
piece. The piece ends up as all of them make of it; a fault leaves every operation with a beginning
of what it was to be fed. -/
theorem Bench.ensures_run {jobs : List Job}
    (hregion : ∀ j ∈ jobs, j.setup.regionSize = (h.lead j.algorithm).length + size)
    {contexts : List Context} {t : Trace} {w : Bench} {p : Bytes}
    (hs : Board.Since start w.board t) (hserve : Serving t contexts (h.strands jobs p))
    (hnodup : (contexts.map Context.id).Nodup) (hx : w.piece ≠ [])
    (hfit : p.length + w.piece.length ≤ size)
    (hblock : ∀ j ∈ jobs, j.algorithm = .aesCbcDecrypt → p.length + w.piece.length < size →
      w.piece.length % 16 = 0) :
    Step.Ensures (Bench.run contexts) w
      (fun contexts' w' => w'.piece = transformAll jobs p.length w.piece ∧
        contexts'.map Context.operation = contexts.map Context.operation ∧
        ∃ u : Trace, Board.Since start w'.board (t ++ u) ∧ u.Uses (contexts.map Context.id) ∧
          Serving (t ++ u) contexts' (h.strands jobs (p ++ w.piece)))
      (fun _ w' => start.Faulty ∧ w'.piece.length = w.piece.length ∧
        ∃ u : Trace, Board.Since start w'.board (t ++ u) ∧ u.Uses (contexts.map Context.id) ∧
          List.Forall₂ (Operation.Keeps (t ++ u)) (contexts.map Context.operation)
            (h.strands jobs (p ++ w.piece))) := by
  induction jobs generalizing contexts t w p with
  | nil =>
    cases hserve
    refine ⟨rfl, rfl, [], ?_, Trace.uses_nil _, .nil⟩
    rwa [List.append_nil]
  | cons j jobs ih =>
    cases hserve with
    | @cons c _ rest _ hc hrest =>
    rw [List.map_cons, List.nodup_cons] at hnodup
    have htakes : j.Takes (h.lead j.algorithm ++ p).length w.piece :=
      Job.takes_of_lead (hregion j (List.mem_cons_self ..)) hx hfit
        (hblock j (List.mem_cons_self ..))
    have hsub : [c.id] ⊆ (c :: rest).map Context.id := by simp
    have hsub' : rest.map Context.id ⊆ (c :: rest).map Context.id := by simp
    have hother : ∀ d ∈ rest, d.id ∉ [c.id] := fun d hd hmem =>
      hnodup.1 (List.mem_singleton.mp hmem ▸ List.mem_map_of_mem hd)
    simp only [Bench.run, Step.ensures_bind, Step.ensures_get, Step.ensures_focus,
      Step.ensures_modify, Step.ensures_pure]
    apply (hc.ensures_process hs htakes).mono
    · rintro ⟨c', out⟩ b' ⟨hout, hop, u, hb', hu, hc'⟩
      simp only [j.transform_lead] at hout
      subst hout
      have hid : c'.id = c.id := congrArg Operation.id hop
      have hlen : (j.transform p.length w.piece).length = w.piece.length := Job.length_transform ..
      have hlenp : (j.transform 0 p).length = p.length := Job.length_transform ..
      -- The operations after `c` see what it has made of the payload, before and now.
      have hnext : j.transform 0 p ++ j.transform p.length w.piece =
          j.transform 0 (p ++ w.piece) := by
        rw [Job.transform_append, Nat.zero_add]
      have hih := @ih (fun j hj => hregion j (List.mem_cons_of_mem _ hj)) rest (t ++ u)
        ⟨b', j.transform p.length w.piece⟩ (j.transform 0 p) hb' (Serving.frame hrest hu hother) hnodup.2
        (by rwa [ne_eq, ← List.length_eq_zero_iff, hlen, List.length_eq_zero_iff])
        (by rwa [hlen, hlenp])
        (by
          rw [hlen, hlenp]
          exact fun j hj => hblock j (List.mem_cons_of_mem _ hj))
      simp only [hnext, hlenp, hlen] at hih
      refine Step.Ensures.mono hih ?_ ?_
      · rintro rest' w' ⟨hpiece, hops, v, hw', hv, hserve'⟩
        refine ⟨hpiece, by rw [List.map_cons, List.map_cons, hop, hops], u ++ v, ?_, ?_, ?_⟩
        · rwa [← List.append_assoc]
        · exact (hu.mono hsub).append (hv.mono hsub')
        · rw [← List.append_assoc]
          refine .cons ?_ hserve'
          rw [List.append_assoc] at hc'
          exact hc'.frame hv (hid ▸ hnodup.1)
      · rintro e w' ⟨hf, hpiece, v, hw', hv, hkeep⟩
        refine ⟨hf, hpiece, u ++ v, ?_, ?_, ?_⟩
        · rwa [← List.append_assoc]
        · exact (hu.mono hsub).append (hv.mono hsub')
        · rw [← List.append_assoc]
          refine .cons ?_ hkeep
          rw [List.append_assoc] at hc'
          exact hop ▸ (hc'.frame hv (hid ▸ hnodup.1)).keeps rfl (List.prefix_refl _)
    · rintro e b' ⟨hf, u, hb', hu, hc'⟩
      have hserve' : Serving (t ++ u) (c :: rest) (h.strands (j :: jobs) p) :=
        .cons hc' (Serving.frame hrest hu hother)
      exact ⟨hf, trivial, u, hb', hu.mono hsub,
        hserve'.keeps (h.strands_prefix (j :: jobs) (List.prefix_append p w.piece))⟩

/-! ### The signed section -/

theorem Context.Fed.ensures_feedVerifier {c : Context} {j : Job} {t : Trace} {b : Board}
    (hregion : j.setup.regionSize = (h.lead j.algorithm).length + size)
    (hc : c.Fed t j []) (hs : Board.Since start b t) :
    Step.Ensures (Board.feedVerifier h.signedSection c) b
      (fun c' b' => c'.operation = c.operation ∧
        ∃ u : Trace, Board.Since start b' (t ++ u) ∧ u.Uses [c.id] ∧
          c'.Fed (t ++ u) j (h.lead j.algorithm))
      (fun _ b' => start.Faulty ∧
        ∃ u : Trace, Board.Since start b' (t ++ u) ∧ u.Uses [c.id] ∧ c.Fed (t ++ u) j []) := by
  unfold Board.feedVerifier
  have halg : c.algorithm = j.algorithm := congrArg Job.algorithm hc.job_eq
  by_cases hv : c.algorithm.verifies
  · have hlead : h.lead j.algorithm = h.signedSection := if_pos (halg ▸ hv)
    have htakes : j.Takes ([] : Bytes).length h.signedSection := by
      refine ⟨?_, ?_, ?_⟩
      · rw [ne_eq, ← List.length_eq_zero_iff, Header.length_signedSection]
        decide
      · rw [hregion, hlead]
        simp
      · intro hd
        rw [← halg] at hd
        rw [hd] at hv
        cases hv
    rw [if_pos hv, Step.ensures_map]
    refine (hc.ensures_process hs htakes).mono ?_ fun _ _ hbad => hbad
    rintro ⟨c', out⟩ b' ⟨-, hop, u, hb', hu, hfed⟩
    exact ⟨hop, u, hb', hu, hlead ▸ hfed⟩
  · have hlead : h.lead j.algorithm = [] := if_neg (halg ▸ hv)
    rw [if_neg hv, Step.ensures_pure]
    exact ⟨rfl, [], by rwa [List.append_nil], Trace.uses_nil _, by rwa [hlead, List.append_nil]⟩

theorem Board.ensures_feedSection {jobs : List Job}
    (hregion : ∀ j ∈ jobs, j.setup.regionSize = (h.lead j.algorithm).length + size)
    {contexts : List Context} {t : Trace} {b : Board} (hs : Board.Since start b t)
    (hfresh : Serving t contexts (jobs.map Strand.bare))
    (hnodup : (contexts.map Context.id).Nodup) :
    Step.Ensures (Board.feedSection h.signedSection contexts) b
      (fun contexts' b' => contexts'.map Context.operation = contexts.map Context.operation ∧
        ∃ u : Trace, Board.Since start b' (t ++ u) ∧ u.Uses (contexts.map Context.id) ∧
          Serving (t ++ u) contexts' (h.strands jobs []))
      (fun _ b' => start.Faulty ∧
        ∃ u : Trace, Board.Since start b' (t ++ u) ∧ u.Uses (contexts.map Context.id) ∧
          List.Forall₂ (Operation.Keeps (t ++ u)) (contexts.map Context.operation)
            (h.strands jobs [])) := by
  induction jobs generalizing contexts t b with
  | nil =>
    cases hfresh
    exact ⟨rfl, [], by rwa [List.append_nil], Trace.uses_nil _, .nil⟩
  | cons j jobs ih =>
    cases hfresh with
    | @cons c _ rest _ hc hrest =>
    rw [List.map_cons, List.nodup_cons] at hnodup
    have hother : ∀ d ∈ rest, d.id ∉ [c.id] := fun d hd hmem =>
      hnodup.1 (List.mem_singleton.mp hmem ▸ List.mem_map_of_mem hd)
    have hsub : [c.id] ⊆ (c :: rest).map Context.id := by simp
    have hsub' : rest.map Context.id ⊆ (c :: rest).map Context.id := by simp
    have hstrands : h.strands (j :: jobs) [] =
        ⟨j, h.lead j.algorithm⟩ :: h.strands jobs [] := by
      rw [Header.strands, Job.transform_nil, List.append_nil]
    rw [hstrands]
    simp only [Board.feedSection, Step.ensures_bind, Step.ensures_pure]
    have hjob := hregion j (List.mem_cons_self ..)
    apply (hc.ensures_feedVerifier hjob hs).mono
    · rintro c' b' ⟨hop, u, hb', hu, hc'⟩
      have hid : c'.id = c.id := congrArg Operation.id hop
      refine Step.Ensures.mono (ih (fun j hj => hregion j (List.mem_cons_of_mem _ hj)) hb'
        (Serving.frame hrest hu hother) hnodup.2) ?_ ?_
      · rintro rest' b'' ⟨hops, v, hb'', hv, hserve⟩
        refine ⟨by rw [List.map_cons, List.map_cons, hop, hops], u ++ v, ?_, ?_, ?_⟩
        · rwa [← List.append_assoc]
        · exact (hu.mono hsub).append (hv.mono hsub')
        · rw [← List.append_assoc]
          exact .cons (hc'.frame hv (hid ▸ hnodup.1)) hserve
      · rintro e b'' ⟨hf, v, hb'', hv, hkeep⟩
        refine ⟨hf, u ++ v, ?_, ?_, ?_⟩
        · rwa [← List.append_assoc]
        · exact (hu.mono hsub).append (hv.mono hsub')
        · rw [← List.append_assoc]
          exact .cons (hop ▸ (hc'.frame hv (hid ▸ hnodup.1)).keeps rfl (List.prefix_refl _)) hkeep
    · rintro e b' ⟨hf, u, hb', hu, hc'⟩
      refine ⟨hf, u, hb', hu.mono hsub, .cons (hc'.keeps rfl List.nil_prefix) ?_⟩
      exact (Serving.frame hrest hu hother).keeps (h.bare_prefix jobs [])

end Run

/-! ### Verdicts -/

section Verdicts

variable {start b : Board} {t : Trace}

theorem Board.ensures_finalizeAll_cons {c : Context} {rest : List Context}
    {good : Unit → Board → Prop} {bad : Error → Board → Prop} :
    Step.Ensures (Board.finalizeAll (c :: rest)) b good bad ↔
      Step.Ensures (Board.finalize c) b (fun _ b' => Step.Ensures (Board.finalizeAll rest) b' good bad)
        (fun _ b' => bad .verifyFailed b') := by
  unfold Step.Ensures
  rw [Board.finalizeAll]
  unfold EStateM.run
  beta_reduce
  cases Board.finalize c b <;> rfl

/-- **Asking for verdicts**: operations that have been fed their regions are asked in order, and
feeding or closing them is left alone. Without faults all of them are asked exactly if none of them
rejects. -/
theorem Board.ensures_finalizeAll {contexts : List Context} (hs : Board.Since start b t)
    (hfed : ∀ c ∈ contexts, ∃ j data, c.Fed t j data ∧ data.length = j.setup.regionSize) :
    Step.Ensures (Board.finalizeAll contexts) b
      (fun _ b' => (∀ c ∈ contexts, c.verdict = .ok ()) ∧
        ∃ u : Trace, Board.Since start b' (t ++ u) ∧ u.Uses (contexts.map Context.id) ∧
          ∀ id, u.fed id = [])
      (fun e b' => e = .verifyFailed ∧
        (start.faults = [] → ∃ c ∈ contexts, c.verdict ≠ .ok ()) ∧
        ∃ u : Trace, Board.Since start b' (t ++ u) ∧ u.Uses (contexts.map Context.id) ∧
          ∀ id, u.fed id = []) := by
  induction contexts generalizing b t with
  | nil =>
    refine ⟨fun c hc => absurd hc List.not_mem_nil, [], ?_, Trace.uses_nil _, fun _ => rfl⟩
    rwa [List.append_nil]
  | cons c rest ih =>
    obtain ⟨j, data, hc, hdata⟩ := hfed c (List.mem_cons_self ..)
    have huses : ∀ r, Trace.Uses [.finalize c.id r] ((c :: rest).map Context.id) := by
      intro r e he
      obtain rfl := List.mem_singleton.mp he
      exact ⟨c.id, by simp, rfl, by simp⟩
    have hnothing : ∀ r id, Trace.fed [.finalize c.id r] id = [] := fun _ _ => rfl
    have hjob : ∀ op ∈ t.operations, op.id = c.id → op.toJob = j := fun op hop hid => by
      rw [hc.operation_eq hs.orderly hop hid]
      exact hc.job_eq
    have hregion : ∀ op ∈ t.operations, op.id = c.id →
        (t.fed c.id).length = op.setup.regionSize := fun op hop hid => by
      rw [hjob op hop hid, hc.fed_eq, hdata]
    have hverdict : ∀ op ∈ t.operations, op.id = c.id → c.verdict = op.verdict (t.fed c.id) :=
      fun op hop hid => by rw [hjob op hop hid, hc.fed_eq, hc.verdict_eq hdata]
    rw [Board.ensures_finalizeAll_cons]
    apply (hs.ensures_finalize hc.live hregion hverdict).mono
    · rintro _ b' ⟨hv, hb'⟩
      have hrest : ∀ d ∈ rest, ∃ j data,
          d.Fed (t ++ [.finalize c.id (.ok ())]) j data ∧ data.length = j.setup.regionSize := by
        intro d hd
        obtain ⟨j, data, hfed, hlen⟩ := hfed d (List.mem_cons_of_mem _ hd)
        exact ⟨j, data, hfed.append (hnothing _ _) (huses _).close_not_mem, hlen⟩
      have hsub : rest.map Context.id ⊆ (c :: rest).map Context.id := by simp
      apply (ih hb' hrest).mono
      · rintro _ b'' ⟨hall, u, hb'', hu, hfeeds⟩
        refine ⟨List.forall_mem_cons.mpr ⟨hv, hall⟩, [.finalize c.id (.ok ())] ++ u, ?_,
          (huses _).append (hu.mono hsub), ?_⟩
        · rwa [← List.append_assoc]
        · exact fun id => by rw [Trace.fed_append, hfeeds, hnothing, List.append_nil]
      · rintro e b'' ⟨he, hreject, u, hb'', hu, hfeeds⟩
        refine ⟨he, fun hf => ?_, [.finalize c.id (.ok ())] ++ u, ?_,
          (huses _).append (hu.mono hsub), ?_⟩
        · obtain ⟨d, hd, hv⟩ := hreject hf
          exact ⟨d, List.mem_cons_of_mem _ hd, hv⟩
        · rwa [← List.append_assoc]
        · exact fun id => by rw [Trace.fed_append, hfeeds, hnothing, List.append_nil]
    · rintro e b' ⟨hreject, hb'⟩
      refine ⟨rfl, fun hf => ⟨c, List.mem_cons_self .., ?_⟩, _, hb', huses _, hnothing _⟩
      rw [hreject hf]
      exact nofun

end Verdicts

end SecureBoot
