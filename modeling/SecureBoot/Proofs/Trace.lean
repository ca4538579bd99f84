import Mathlib.Data.List.Induction
import SecureBoot.Board.Basic
import SecureBoot.Proofs.Ensures

/-!
The record of a board's calls as a history of operations: which have been set up
(`Trace.operations`), what each has been fed (`Trace.fed`) and which are open (`Trace.Live`).

A record is orderly (`Trace.Orderly`) if each call is in order after those before it: operations get
new numbers, only open ones are fed, asked and closed, they are fed within their region and in whole
blocks, and they are asked for a verdict only once their region is complete. An orderly record that
leaves nothing open has closed each operation exactly once and last (`Trace.Orderly.released`).
Without faults an orderly record is answered by the book, too (`Trace.Answered`): the engine refuses
nothing, and its verdicts are about the tags alone.
-/

namespace SecureBoot

/-- What an operation is to be: its algorithm and what it is set up with. -/
structure Job where
  algorithm : Algorithm
  setup : Setup
deriving DecidableEq, Repr

/-- Whether `data` may be fed to an operation that has been fed `done` bytes. -/
def Job.Takes (j : Job) (done : Nat) (data : Bytes) : Prop :=
  data ≠ [] ∧ done + data.length ≤ j.setup.regionSize ∧
    (j.algorithm = .aesCbcDecrypt → done + data.length < j.setup.regionSize →
      data.length % 16 = 0)

/-- The tag that the job finds for what it has been fed. -/
def Job.tag (j : Job) (data : Bytes) : Bytes :=
  tagOfSeed (fnv fnvBasis data ^^^ fnv fnvBasis j.setup.keyBytes) j.setup.expected.length

/-- The verdict of the job on its whole region. -/
def Job.verdict (j : Job) (data : Bytes) : Except Error Unit :=
  if j.algorithm.verifies ∧ j.setup.expected ≠ j.tag data then .error .verifyFailed else .ok ()

/-- An operation that has been set up, with the number it got. -/
structure Operation extends Job where
  id : Nat
deriving DecidableEq, Repr

abbrev Trace := List Event

namespace Event

def operation? : Event → Option Operation
  | .init algorithm setup (.ok id) => some ⟨⟨algorithm, setup⟩, id⟩
  | _ => none

/-- What the call has fed to the operation `id`. A call that fails feeds nothing. -/
def fedTo (id : Nat) : Event → Bytes
  | .process i data (.ok _) => if i = id then data else []
  | _ => []

/-- The operation that the call is made on. -/
def subject? : Event → Option Nat
  | .process id .. | .finalize id _ | .close id => some id
  | _ => none

theorem isSome_opened? (e : Event) : e.opened?.isSome = e.operation?.isSome := by
  cases e with
  | init algorithm setup result => cases result <;> rfl
  | _ => rfl

theorem fedTo_eq_nil {e : Event} {id : Nat} (h : e.subject? ≠ some id) : e.fedTo id = [] := by
  unfold fedTo
  split
  · exact if_neg fun hid => h (congrArg some hid)
  · rfl

end Event

namespace Trace

/-- The operations that have been set up, in order. -/
def operations (t : Trace) : List Operation := t.filterMap Event.operation?

/-- What an operation has been fed, in all. -/
def fed (t : Trace) (id : Nat) : Bytes := t.flatMap (Event.fedTo id)

def Opened (t : Trace) (id : Nat) : Prop := ∃ op ∈ t.operations, op.id = id

def Live (t : Trace) (id : Nat) : Prop := t.Opened id ∧ .close id ∉ t

end Trace

/-- Whether a call is in order after the calls before it. -/
def Event.Follows (before : Trace) : Event → Prop
  | .init _ _ (.ok id) => ¬ before.Opened id
  | .process id data _ =>
    before.Live id ∧ ∀ op ∈ before.operations, op.id = id → op.Takes (before.fed id).length data
  | .finalize id _ =>
    before.Live id ∧
      ∀ op ∈ before.operations, op.id = id → (before.fed id).length = op.setup.regionSize
  | .close id => before.Live id
  | _ => True

/-- Whether a call is answered as an engine without faults answers it. -/
def Event.Answered (before : Trace) : Event → Prop
  | .init _ _ r => ∃ id, r = .ok id
  | .process _ _ r => ∃ out, r = .ok out
  | .derive _ r => ∃ k, r = .ok k
  | .finalize id r => ∀ op ∈ before.operations, op.id = id → r = op.verdict (before.fed id)
  | _ => True

namespace Trace

/-- Every call stands in a relation to the calls before it. -/
def Throughout (p : Trace → Event → Prop) (t : Trace) : Prop :=
  ∀ before e after, t = before ++ e :: after → p before e

abbrev Orderly : Trace → Prop := Throughout fun before e => e.Follows before

abbrev Answered : Trace → Prop := Throughout fun before e => e.Answered before

/-- Every operation has been closed once, and nothing has been done with it afterwards. -/
structure Released (t : Trace) : Prop where
  ids_nodup : (t.operations.map Operation.id).Nodup
  closed_once : ∀ op ∈ t.operations, t.count (.close op.id) = 1
  opened_before : ∀ (before : Trace) id after, t = before ++ .close id :: after → before.Opened id
  unused_after : ∀ (before : Trace) id after, t = before ++ .close id :: after →
    ∀ e ∈ after, e.subject? ≠ some id

/-! ### The views of a record that grows -/

section Append

variable (t u : Trace) (id : Nat)

@[simp] theorem operations_append : operations (t ++ u) = t.operations ++ u.operations :=
  List.filterMap_append

@[simp] theorem fed_append : fed (t ++ u) id = t.fed id ++ u.fed id := List.flatMap_append

theorem Opened.append_left {t : Trace} {id : Nat} (h : t.Opened id) : Opened (t ++ u) id := by
  obtain ⟨op, hop, hid⟩ := h
  exact ⟨op, by rw [operations_append]; exact List.mem_append_left _ hop, hid⟩

variable {t u id}

theorem opened_append : Opened (t ++ u) id ↔ t.Opened id ∨ u.Opened id := by
  simp only [Opened, operations_append, List.mem_append, or_and_right, exists_or]

theorem fed_eq_nil_of_subject (h : ∀ e ∈ u, e.subject? ≠ some id) : u.fed id = [] :=
  List.flatMap_eq_nil_iff.mpr fun e he => Event.fedTo_eq_nil (h e he)

theorem opened_iff_mem : t.Opened id ↔ id ∈ t.operations.map Operation.id := by
  simp [Opened]

/-- Closing operations sets none up. -/
@[simp] theorem operations_closes (contexts : List Context) :
    operations (contexts.map fun c => .close c.id) = [] := by
  rw [operations, List.filterMap_map]
  exact List.filterMap_eq_nil_iff.mpr fun _ _ => rfl

/-- Closing operations feeds none. -/
@[simp] theorem fed_closes (contexts : List Context) (id : Nat) :
    fed (contexts.map fun c => .close c.id) id = [] := by
  apply List.flatMap_eq_nil_iff.mpr
  intro e he
  obtain ⟨c, -, rfl⟩ := List.mem_map.mp he
  rfl

end Append

/-! ### Orderly records -/

section Throughout

variable {p : Trace → Event → Prop}

theorem throughout_nil : Throughout p [] := by
  intro before e after h
  cases before <;> cases h

theorem throughout_snoc {t : Trace} {e : Event} :
    Throughout p (t ++ [e]) ↔ t.Throughout p ∧ p t e := by
  constructor
  · intro h
    refine ⟨fun before x after hx => h before x (after ++ [e]) ?_, h t e [] rfl⟩
    rw [hx, List.append_assoc, List.cons_append]
  · rintro ⟨ht, he⟩ before x after hx
    rcases List.eq_nil_or_concat after with rfl | ⟨after, last, rfl⟩
    · obtain ⟨hbefore, hlast⟩ := List.append_inj' hx rfl
      cases hlast
      exact hbefore ▸ he
    · rw [List.concat_eq_append, ← List.cons_append, ← List.append_assoc] at hx
      exact ht before x after (List.append_inj' hx rfl).1

end Throughout

section Orderly

variable {t : Trace} {id : Nat}

/-- A call on an operation comes after the one that has set it up. -/
theorem Orderly.live_of_subject (h : t.Orderly) (before : Trace) (e : Event) (after : Trace)
    (ht : t = before ++ e :: after) (he : e.subject? = some id) : before.Live id := by
  have hf := h before e after ht
  cases e <;> cases he
  · exact hf.1
  · exact hf.1
  · exact hf

theorem Orderly.subject_ne (h : t.Orderly) (hid : ¬ t.Opened id) {e : Event} (he : e ∈ t) :
    e.subject? ≠ some id := by
  intro hs
  obtain ⟨before, after, ht⟩ := List.append_of_mem he
  apply hid
  rw [ht]
  exact (h.live_of_subject _ _ _ ht hs).1.append_left _

theorem Orderly.fed_eq_nil (h : t.Orderly) (hid : ¬ t.Opened id) : t.fed id = [] :=
  fed_eq_nil_of_subject fun _ => h.subject_ne hid

theorem Orderly.close_not_mem (h : t.Orderly) (hid : ¬ t.Opened id) : .close id ∉ t :=
  fun hmem => h.subject_ne hid hmem rfl

theorem Orderly.ids_nodup (h : t.Orderly) : (t.operations.map Operation.id).Nodup := by
  induction t using List.reverseRecOn with
  | nil => exact List.nodup_nil
  | append_singleton t e ih =>
    obtain ⟨ht, he⟩ := throughout_snoc.mp h
    rw [operations_append, List.map_append]
    cases hop : e.operation? with
    | none => simpa [operations, hop] using ih ht
    | some op =>
      have hnew : ¬ Opened t op.id := by
        unfold Event.operation? at hop
        split at hop <;> cases hop
        exact he
      rw [opened_iff_mem] at hnew
      have hsingle : operations [e] = [op] := by simp [operations, hop]
      rw [hsingle]
      exact List.nodup_append.mpr ⟨ih ht, List.pairwise_singleton _ _, by
        intro a ha b hb hab
        rw [List.map_singleton, List.mem_singleton] at hb
        exact hnew (hb ▸ hab ▸ ha)⟩

theorem Orderly.unused_after (h : t.Orderly) {before after : Trace}
    (ht : t = before ++ .close id :: after) {e : Event} (he : e ∈ after) :
    e.subject? ≠ some id := by
  intro hs
  obtain ⟨mid, rest, rfl⟩ := List.append_of_mem he
  have hl : Live (before ++ .close id :: mid) id :=
    h.live_of_subject _ e rest (by rw [ht]; simp) hs
  exact hl.2 (by simp)

/-- **Nothing open means everything released**: an orderly record that leaves no operation open has
closed each one exactly once, after it was set up, and has not used it since. -/
theorem Orderly.released (h : t.Orderly) (hlive : ∀ id, ¬ t.Live id) : t.Released where
  ids_nodup := h.ids_nodup
  closed_once := by
    intro op hop
    have hmem : .close op.id ∈ t :=
      Classical.byContradiction fun hc => hlive op.id ⟨⟨op, hop, rfl⟩, hc⟩
    obtain ⟨before, after, ht⟩ := List.append_of_mem hmem
    have hbefore := (h.live_of_subject _ _ _ ht rfl).2
    have hafter : .close op.id ∉ after := fun hc => h.unused_after ht hc rfl
    rw [ht, List.count_append, List.count_cons_self, List.count_eq_zero_of_not_mem hbefore,
      List.count_eq_zero_of_not_mem hafter]
  opened_before := fun _ _ _ ht => (h.live_of_subject _ _ _ ht rfl).1
  unused_after := fun _ _ _ ht _ he => h.unused_after ht he

end Orderly

end Trace

/-! ### What a board has been asked since some moment -/

/-- The call is one to the security engine. -/
def Call.isEngine : Call → Bool
  | .query | .read | .write => false
  | .init | .process | .finalize | .derive => true

namespace Board

/-- The calls since `start` are `t`: they are orderly, and the operations that they have set up are
numbered on from `start`. Without faults they have been answered by the book. -/
structure Since (start b : Board) (t : Trace) : Prop where
  trace : b.trace = start.trace ++ t
  fuses : b.fuses = start.fuses
  faults : b.faults = start.faults
  ids : t.operations.map Operation.id = List.range' start.nextId t.operations.length
  orderly : t.Orderly
  answered : start.faults = [] → t.Answered

/-- A fault may strike a call to the engine. -/
def Faulty (b : Board) : Prop := ∃ f ∈ b.faults, f.call.isEngine

theorem Faulty.faults_ne_nil {b : Board} (h : b.Faulty) : b.faults ≠ [] := by
  obtain ⟨f, hf, -⟩ := h
  exact List.ne_nil_of_mem hf

theorem Since.refl (b : Board) : Since b b [] :=
  ⟨(List.append_nil _).symm, rfl, rfl, rfl, Trace.throughout_nil, fun _ => Trace.throughout_nil⟩

section Since

variable {start b : Board} {t : Trace}

theorem Since.nextId (h : Since start b t) : b.nextId = start.nextId + t.operations.length := by
  unfold Board.nextId
  rw [h.trace, List.countP_append]
  simp only [Event.isSome_opened?, Trace.operations, List.length_filterMap_eq_countP]

theorem Since.opened_lt (h : Since start b t) {id : Nat} (hid : t.Opened id) : id < b.nextId := by
  rw [Trace.opened_iff_mem, h.ids, List.mem_range'_1] at hid
  rw [h.nextId]
  exact hid.2

/-- A call that sets nothing up. -/
theorem Since.record (h : Since start b t) {e : Event} (hop : e.operation? = none)
    (he : e.Follows t) (hanswer : start.faults = [] → e.Answered t) :
    Since start (b.record e) (t ++ [e]) where
  trace := by rw [trace_record, h.trace, List.append_assoc]
  fuses := h.fuses
  faults := h.faults
  ids := by
    have hnone : Trace.operations [e] = [] := by simp [Trace.operations, hop]
    rw [Trace.operations_append, hnone, List.append_nil]
    exact h.ids
  orderly := Trace.throughout_snoc.mpr ⟨h.orderly, he⟩
  answered := fun hf => Trace.throughout_snoc.mpr ⟨h.answered hf, hanswer hf⟩

/-- A call that sets an operation up. -/
theorem Since.record_init (h : Since start b t) (algorithm : Algorithm) (setup : Setup) :
    Since start (b.record (.init algorithm setup (.ok b.nextId)))
      (t ++ [.init algorithm setup (.ok b.nextId)]) where
  trace := by rw [trace_record, h.trace, List.append_assoc]
  fuses := h.fuses
  faults := h.faults
  ids := by
    rw [Trace.operations_append, List.map_append, List.length_append, h.ids, h.nextId]
    exact (List.range'_1_concat ..).symm
  orderly :=
    Trace.throughout_snoc.mpr ⟨h.orderly, fun hid => Nat.lt_irrefl _ (h.opened_lt hid)⟩
  answered := fun hf => Trace.throughout_snoc.mpr ⟨h.answered hf, _, rfl⟩

/-! ### The calls, one by one -/

/-- A call fails by a fault for calls of its kind, or because of its answer. -/
theorem ensures_perform {α : Type} (call : Call) (answer : Board → Except Error α)
    (event : Except Error α → Event) (b : Board) :
    Step.Ensures (perform call answer event) b
      (fun a b' => answer b = .ok a ∧ b' = b.record (event (.ok a)))
      (fun e b' => b' = b.record (event (.error e)) ∧
        ((∀ f ∈ b.faults, f.call ≠ call) → answer b = .error e)) := by
  unfold Step.Ensures
  rw [run_perform]
  cases hf : b.fault? call with
  | some e =>
    obtain ⟨f, hfind, -⟩ := Option.map_eq_some_iff.mp hf
    have hcall : f.call = call := by
      have hfound := List.find?_some hfind
      exact (of_decide_eq_true hfound).1
    simp only [result, hf]
    exact ⟨trivial, fun h => absurd hcall (h f (List.mem_of_find?_eq_some hfind))⟩
  | none =>
    simp only [result, hf]
    cases answer b with
    | ok a => exact ⟨rfl, rfl⟩
    | error e => exact ⟨rfl, fun _ => rfl⟩

theorem call_ne_of_faults {b : Board} (h : b.faults = []) (call : Call) :
    ∀ f ∈ b.faults, f.call ≠ call := by
  rw [h]
  exact fun _ hf => absurd hf List.not_mem_nil

/-- A call to the engine that has failed with the answer of a success has been struck by a fault. -/
theorem Since.faulty {α : Type} (h : Since start b t) {call : Call} (hcall : call.isEngine)
    {answer : Except Error α} {a : α} (ha : answer = .ok a) {e : Error}
    (hf : (∀ f ∈ b.faults, f.call ≠ call) → answer = .error e) : start.Faulty := by
  by_contra hnone
  have herror : answer = .error e := hf fun f hmem heq =>
    hnone ⟨f, h.faults ▸ hmem, heq ▸ hcall⟩
  cases ha.symm.trans herror

/-- A decryption with a key slot, and every other operation, is set up unless a fault strikes. -/
theorem start_eq {algorithm : Algorithm} {setup : Setup}
    (hkey : algorithm = .aesCbcDecrypt → ∃ slot, setup.key = .slot slot) :
    Board.start algorithm setup =
      (do
        let id ← perform .init (fun b => .ok b.nextId) (.init algorithm setup)
        return .start id algorithm setup) := by
  cases algorithm with
  | aesCbcDecrypt =>
    obtain ⟨slot, hslot⟩ := hkey rfl
    unfold Board.start
    rw [hslot]
  | _ => rfl

theorem Since.ensures_start (h : Since start b t) {algorithm : Algorithm} {setup : Setup}
    (hkey : algorithm = .aesCbcDecrypt → ∃ slot, setup.key = .slot slot) :
    Step.Ensures (Board.start algorithm setup) b
      (fun c b' => c = .start b.nextId algorithm setup ∧
        Since start b' (t ++ [.init algorithm setup (.ok b.nextId)]))
      (fun e b' => start.Faulty ∧
        Since start b' (t ++ [.init algorithm setup (.error e)])) := by
  rw [start_eq hkey, Step.ensures_bind]
  apply (ensures_perform _ _ _ b).mono
  · rintro id b' ⟨hid, rfl⟩
    cases hid
    exact ⟨rfl, h.record_init algorithm setup⟩
  · rintro e b' ⟨rfl, hf⟩
    have hfaulty : start.Faulty := h.faulty rfl rfl hf
    exact ⟨hfaulty, h.record rfl trivial fun hnone => absurd hnone hfaulty.faults_ne_nil⟩

/-- Feeding an operation what it takes fails by a fault only. -/
theorem Since.ensures_process (h : Since start b t) {c c' : Context} {data out : Bytes}
    (hlive : t.Live c.id)
    (htakes : ∀ op ∈ t.operations, op.id = c.id → op.Takes (t.fed c.id).length data)
    (hfeed : c.feed data = .ok (c', out)) :
    Step.Ensures (Board.process c data) b
      (fun r b' => r = (c', out) ∧ Since start b' (t ++ [.process c.id data (.ok out)]))
      (fun e b' => start.Faulty ∧ Since start b' (t ++ [.process c.id data (.error e)])) := by
  apply (ensures_perform _ _ _ b).mono
  · rintro r b' ⟨hr, rfl⟩
    rw [hfeed] at hr
    cases hr
    exact ⟨rfl, h.record rfl ⟨hlive, htakes⟩ fun _ => ⟨out, rfl⟩⟩
  · rintro e b' ⟨rfl, hf⟩
    have hfaulty : start.Faulty := h.faulty rfl hfeed hf
    exact ⟨hfaulty,
      h.record rfl ⟨hlive, htakes⟩ fun hnone => absurd hnone hfaulty.faults_ne_nil⟩

/-- Asking an operation that has been fed its region and knows what it has been fed. -/
theorem Since.ensures_finalize (h : Since start b t) {c : Context} (hlive : t.Live c.id)
    (hfed : ∀ op ∈ t.operations, op.id = c.id → (t.fed c.id).length = op.setup.regionSize)
    (hverdict : ∀ op ∈ t.operations, op.id = c.id → c.verdict = op.verdict (t.fed c.id)) :
    Step.Ensures (Board.finalize c) b
      (fun _ b' => c.verdict = .ok () ∧ Since start b' (t ++ [.finalize c.id (.ok ())]))
      (fun e b' => (start.faults = [] → c.verdict = .error e) ∧
        Since start b' (t ++ [.finalize c.id (.error e)])) := by
  apply (ensures_perform _ _ _ b).mono
  · rintro _ b' ⟨hr, rfl⟩
    exact ⟨hr, h.record rfl ⟨hlive, hfed⟩ fun _ op hop hid => hr ▸ hverdict op hop hid⟩
  · rintro e b' ⟨rfl, hf⟩
    have hr : start.faults = [] → c.verdict = .error e := fun hnone =>
      hf (call_ne_of_faults (h.faults.trans hnone) _)
    exact ⟨hr, h.record rfl ⟨hlive, hfed⟩ fun hnone op hop hid => hr hnone ▸ hverdict op hop hid⟩

theorem Since.ensures_deriveSubkeys (h : Since start b t) (slot : KeySlot) :
    Step.Ensures (Board.deriveSubkeys slot) b
      (fun k b' => k = .ofSlot slot ∧ Since start b' (t ++ [.derive slot (.ok k)]))
      (fun e b' => start.Faulty ∧ Since start b' (t ++ [.derive slot (.error e)])) := by
  apply (ensures_perform _ _ _ b).mono
  · rintro k b' ⟨hk, rfl⟩
    cases hk
    exact ⟨rfl, h.record rfl trivial fun _ => ⟨_, rfl⟩⟩
  · rintro e b' ⟨rfl, hf⟩
    have hfaulty : start.Faulty := h.faulty rfl rfl hf
    exact ⟨hfaulty, h.record rfl trivial fun hnone => absurd hnone hfaulty.faults_ne_nil⟩

/-- Closing operations that are open. -/
theorem Since.closeAll (h : Since start b t) {contexts : List Context}
    (hlive : ∀ c ∈ contexts, t.Live c.id) (hnodup : (contexts.map Context.id).Nodup) :
    Since start (b.closeAll contexts) (t ++ contexts.map fun c => .close c.id) := by
  induction contexts generalizing b t with
  | nil => simpa [Board.closeAll] using h
  | cons c rest ih =>
    have hc : Since start (b.close c) (t ++ [.close c.id]) :=
      h.record rfl (hlive c (List.mem_cons_self ..)) fun _ => trivial
    rw [List.map_cons, List.nodup_cons] at hnodup
    have hrest : ∀ d ∈ rest, Trace.Live (t ++ [.close c.id]) d.id := by
      intro d hd
      have hopen := hlive d (List.mem_cons_of_mem _ hd)
      refine ⟨hopen.1.append_left _, ?_⟩
      simp only [List.mem_append, List.mem_singleton, Event.close.injEq, not_or]
      exact ⟨hopen.2, fun heq => hnodup.1 (heq ▸ List.mem_map_of_mem hd)⟩
    simpa [Board.closeAll] using ih hc hrest hnodup.2

end Since

end Board

end SecureBoot
