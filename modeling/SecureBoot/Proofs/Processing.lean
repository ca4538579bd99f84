import SecureBoot.Proofs.Changes

/-!
The calls that feed data to operations, one for one. `Trace.processing` is what a record has of them.
Setting operations up, asking for verdicts and closing operations add none (`Step.Processes`). What the
two steps that do feed data add is written down here as a record of its own: the signed section goes
once to each operation that checks a signature (`sectionCalls`), and payload goes once to each operation,
which works on what the one before it has made (`runCalls`). So if all of a payload runs at once, each
operation of its layer is fed by one call for each of the two (`Layer.calls`).

These statements are about runs that succeed, and they assume nothing about faults.
-/

namespace SecureBoot

open Step

/-! ### What a record has of them -/

def Event.isProcess : Event → Bool
  | .process .. => true
  | _ => false

namespace Trace

/-- The calls that feed data to operations, in order. -/
def processing (t : Trace) : Trace := t.filter Event.isProcess

@[simp] theorem processing_append (t u : Trace) :
    processing (t ++ u) = t.processing ++ u.processing := List.filter_append ..

theorem processing_eq_nil {t : Trace} (h : ∀ e ∈ t, e.isProcess = false) : t.processing = [] :=
  List.filter_eq_nil_iff.mpr fun e he => by simp [h e he]

theorem processing_eq_self {t : Trace} (h : ∀ e ∈ t, e.isProcess) : t.processing = t :=
  List.filter_eq_self.mpr h

end Trace

namespace Board

def processing (b : Board) : Trace := Trace.processing b.trace

theorem Extends.processing_eq {p : Event → Prop} {b b' : Board} (h : b.Extends p b')
    (hp : ∀ e, p e → e.isProcess = false) : b'.processing = b.processing := by
  obtain ⟨t, ht, hall⟩ := h.calls
  rw [processing, processing, ht, Trace.processing_append,
    Trace.processing_eq_nil fun e he => hp e (hall e he), List.append_nil]

end Board

theorem Event.not_isProcess_of_isSetUp {e : Event} (h : e.isSetUp) : e.isProcess = false := by
  cases e <;> trivial

/-! ### One operation -/

namespace Context

/-- A decryption that has not been fed yet, or any other operation. -/
def Fresh (c : Context) : Prop := c.algorithm.verifies = false → c.fed = 0

theorem Fresh.transform_eq {c : Context} (h : c.Fresh) (data : Bytes) :
    c.job.transform c.fed data = c.job.transform 0 data := by
  cases hv : c.algorithm.verifies with
  | false => rw [h hv]
  | true => rw [Job.transform_of_verifies hv, Job.transform_of_verifies hv]

end Context

theorem Board.ensures_process_calls (c : Context) (data : Bytes) (b : Board) :
    Ensures (Board.process c data) b
      (fun r b' => r.1.operation = c.operation ∧ r.2 = c.job.transform c.fed data ∧
        b'.trace = b.trace ++ [.process c.id data (.ok r.2)])
      (fun _ _ => True) := by
  apply (ensures_perform _ _ _ b).mono
  · rintro ⟨c', out⟩ b' ⟨hfeed, rfl⟩
    obtain ⟨hop, hout⟩ := Context.of_feed hfeed
    exact ⟨hop, hout, rfl⟩
  · exact fun _ _ _ => trivial

/-! ### The signed section -/

/-- One call for each operation that checks a signature. -/
def sectionCalls (signed : Bytes) (ops : List Operation) : Trace :=
  (ops.filter (·.algorithm.verifies)).map fun op => .process op.id signed (.ok signed)

theorem sectionCalls_cons (signed : Bytes) (op : Operation) (ops : List Operation) :
    sectionCalls signed (op :: ops) =
      (if op.algorithm.verifies then [.process op.id signed (.ok signed)] else []) ++
        sectionCalls signed ops := by
  cases hv : op.algorithm.verifies <;> simp [sectionCalls, hv]

theorem processing_sectionCalls (signed : Bytes) (ops : List Operation) :
    (sectionCalls signed ops).processing = sectionCalls signed ops := by
  apply Trace.processing_eq_self
  intro e he
  obtain ⟨op, -, rfl⟩ := List.mem_map.mp he
  rfl

namespace Board

theorem ensures_feedVerifier_calls (signed : Bytes) (c : Context) (b : Board) :
    Ensures (feedVerifier signed c) b
      (fun c' b' => c'.operation = c.operation ∧ (c.Fresh → c'.Fresh) ∧
        b'.trace = b.trace ++
          if c.algorithm.verifies then [.process c.id signed (.ok signed)] else [])
      (fun _ _ => True) := by
  unfold feedVerifier
  by_cases hv : c.algorithm.verifies
  · rw [if_pos hv, if_pos hv, ensures_map]
    refine (ensures_process_calls c signed b).mono ?_ fun _ _ _ => trivial
    rintro ⟨c', out⟩ b' ⟨hop, hout, htrace⟩
    have halg : c'.algorithm = c.algorithm := congrArg (·.algorithm) hop
    have hsame : out = signed := hout.trans (Job.transform_of_verifies hv _ _)
    refine ⟨hop, fun _ hd => ?_, hsame ▸ htrace⟩
    rw [halg, hv] at hd
    cases hd
  · rw [if_neg hv, if_neg hv, ensures_pure, List.append_nil]
    exact ⟨rfl, id, rfl⟩

/-- **Feeding the signed section** is one call for each operation that checks a signature. -/
theorem ensures_feedSection_calls (signed : Bytes) (contexts : List Context) (b : Board) :
    Ensures (feedSection signed contexts) b
      (fun contexts' b' => contexts'.map Context.operation = contexts.map Context.operation ∧
        ((∀ c ∈ contexts, c.Fresh) → ∀ c ∈ contexts', c.Fresh) ∧
        b'.trace = b.trace ++ sectionCalls signed (contexts.map Context.operation))
      (fun _ _ => True) := by
  induction contexts generalizing b with
  | nil => exact ⟨rfl, id, (List.append_nil _).symm⟩
  | cons c rest ih =>
    simp only [feedSection, ensures_bind, ensures_pure]
    refine (ensures_feedVerifier_calls signed c b).mono ?_ fun _ _ _ => trivial
    rintro c' b' ⟨hop, hfresh, htrace⟩
    refine (ih b').mono ?_ fun _ _ _ => trivial
    rintro rest' b'' ⟨hops, hfresh', htrace'⟩
    refine ⟨by rw [List.map_cons, List.map_cons, hop, hops], fun hall => ?_, ?_⟩
    · obtain ⟨hc, hrest⟩ := List.forall_mem_cons.mp hall
      exact List.forall_mem_cons.mpr ⟨hfresh hc, hfresh' hrest⟩
    · rw [htrace', htrace, List.append_assoc, List.map_cons, sectionCalls_cons]
      rfl

end Board

/-! ### Payload -/

/-- One call for each operation that has not been fed any payload yet: what the operations before it
make of the data is what it is fed. -/
def runCalls : List Operation → Bytes → Trace
  | [], _ => []
  | op :: rest, data =>
    .process op.id data (.ok (op.transform 0 data)) :: runCalls rest (op.transform 0 data)

/-- The calls that feed a payload which runs at once: none if there is nothing to run. -/
def payloadCalls (ops : List Operation) (payload : Bytes) : Trace :=
  if payload = [] then [] else runCalls ops payload

theorem processing_runCalls (ops : List Operation) (data : Bytes) :
    (runCalls ops data).processing = runCalls ops data := by
  induction ops generalizing data with
  | nil => rfl
  | cons op rest ih =>
    rw [runCalls, Trace.processing, List.filter_cons_of_pos rfl]
    exact congrArg _ (ih _)

theorem processing_payloadCalls (ops : List Operation) (payload : Bytes) :
    (payloadCalls ops payload).processing = payloadCalls ops payload := by
  unfold payloadCalls
  split
  · rfl
  · exact processing_runCalls ops payload

/-- **Running payload from its start on** is one call for each operation. -/
theorem Bench.ensures_run_calls {contexts : List Context} (hfresh : ∀ c ∈ contexts, c.Fresh)
    (w : Bench) :
    Ensures (Bench.run contexts) w
      (fun contexts' w' => contexts'.map Context.operation = contexts.map Context.operation ∧
        w'.piece =
          transformAll ((contexts.map Context.operation).map Operation.toJob) 0 w.piece ∧
        w'.board.trace = w.board.trace ++ runCalls (contexts.map Context.operation) w.piece)
      (fun _ _ => True) := by
  induction contexts generalizing w with
  | nil => exact ⟨rfl, rfl, (List.append_nil _).symm⟩
  | cons c rest ih =>
    obtain ⟨hc, hrest⟩ := List.forall_mem_cons.mp hfresh
    simp only [Bench.run, ensures_bind, ensures_get, ensures_focus, ensures_modify, ensures_pure]
    refine (Board.ensures_process_calls c w.piece w.board).mono ?_ fun _ _ _ => trivial
    rintro ⟨c', out⟩ b ⟨hop, hout, htrace⟩
    obtain rfl : out = c.job.transform 0 w.piece := hout.trans (hc.transform_eq _)
    refine (ih hrest _).mono ?_ fun _ _ _ => trivial
    rintro rest' w' ⟨hops, hpiece, htrace'⟩
    refine ⟨by rw [List.map_cons, List.map_cons, hop, hops], hpiece, ?_⟩
    rw [htrace', htrace, List.append_assoc]
    rfl

/-! ### A layer whose payload runs at once -/

namespace Layer

abbrev operations (l : Layer) : List Operation := l.contexts.map Context.operation

/-- What the operations make of a payload. -/
def made (l : Layer) (payload : Bytes) : Bytes :=
  transformAll (l.operations.map Operation.toJob) 0 payload

@[simp] theorem length_made (l : Layer) (payload : Bytes) :
    (l.made payload).length = payload.length := length_transformAll ..

/-- The calls that feed the operations of a layer if its payload runs at once: one for the signed
section to each that checks a signature, and then one for the whole payload to each, if there is any
payload at all. -/
def calls (l : Layer) (payload : Bytes) : Trace :=
  sectionCalls l.header.signedSection l.operations ++ payloadCalls l.operations payload

end Layer

end SecureBoot
