import SecureBoot.Proofs.Calls

/-!
What is read out of the fuses. Each reading asks for the size of a field, goes on if that is one that
it takes and reads the field (`Board.readSized`). `Board.Reading` has one case for each thing that it can
come to, with the faults and the fuses that bring it about and the calls that it makes. If it succeeds it
has got the field and has made these two calls, and without faults it succeeds with every field of such
a size (`Board.ensures_readSized`).
-/

namespace SecureBoot.Board

open Step

/-! ### Calls on record -/

/-- The board with some more calls on record. -/
def recordAll (b : Board) (calls : Trace) : Board := { b with trace := b.trace ++ calls }

@[simp] theorem record_record (b : Board) (e e' : Event) :
    (b.record e).record e' = b.recordAll [e, e'] := by
  simp [record, recordAll]

@[simp] theorem record_recordAll (b : Board) (calls : Trace) (e : Event) :
    (b.recordAll calls).record e = b.recordAll (calls ++ [e]) := by
  simp [record, recordAll]

theorem extends_recordAll {p : Event → Prop} {calls : Trace} (h : ∀ e ∈ calls, p e) (b : Board) :
    b.Extends p (b.recordAll calls) :=
  ⟨rfl, rfl, calls, rfl, h⟩

/-! ### Readings -/

/-- Reads a field of a size that is taken. -/
def readSized (field : FuseField) (takes : Nat → Prop) [DecidablePred takes] : Step Board Bytes := do
  let size ← query field
  Step.require (takes size) .invalid
  read field size

theorem readWord_eq (field : FuseField) :
    readWord field = do
      let value ← readSized field fun size => 1 ≤ size ∧ size ≤ 4
      return UInt32.ofNat (ofLE value) := by
  simp only [readWord, readSized, bind_assoc]

theorem readUniqueId_eq : readUniqueId = readSized .uniqueId fun size => size = 16 := rfl

/-- The calls that read a field. -/
def readings (field : FuseField) (value : Bytes) : Trace :=
  [.query field (.ok value.length), .read field value.length (.ok value)]

theorem isLook_of_mem_readings {field : FuseField} {value : Bytes} :
    ∀ e ∈ readings field value, e.isLook := by
  simp [readings, Event.isLook]

/-- A reading reads one value. -/
theorem eq_of_mem_readings {field : FuseField} {value value' : Bytes} {size : Nat}
    (h : .read field size (.ok value') ∈ readings field value) : value = value' := by
  rcases List.mem_cons.mp h with hquery | hread
  · cases hquery
  · cases List.mem_singleton.mp hread
    rfl

/-- The calls of a reading that fails, with its error: the field cannot be asked for its size, has one
that is not taken, or cannot be read. -/
inductive FailedReading (field : FuseField) (takes : Nat → Prop) : Trace → Error → Prop where
  | unsized {e : Error} : FailedReading field takes [.query field (.error e)] e
  | refused {size : Nat} (h : ¬ takes size) :
      FailedReading field takes [.query field (.ok size)] .invalid
  | unread {size : Nat} {e : Error} (h : takes size) :
      FailedReading field takes [.query field (.ok size), .read field size (.error e)] e

theorem FailedReading.isLook {field : FuseField} {takes : Nat → Prop} {u : Trace} {e : Error}
    (h : FailedReading field takes u e) : ∀ e ∈ u, e.isLook := by
  cases h <;> simp [Event.isLook]

/-! ### What a reading comes to -/

section Perform

variable {α : Type} {b : Board} {call : Call}

theorem result_of_fault {e : Error} (h : b.fault? call = some e) (answer : Except Error α) :
    b.result call answer = .error e := by
  rw [result, h]

theorem result_of_no_fault (h : b.fault? call = none) (answer : Except Error α) :
    b.result call answer = answer := by
  rw [result, h]

variable {answer : Board → Except Error α} {event : Except Error α → Event}
  {good : α → Board → Prop} {bad : Error → Board → Prop}

theorem ensures_perform_ok {a : α} (h : b.result call (answer b) = .ok a) :
    Ensures (perform call answer event) b good bad ↔ good a (b.record (event (.ok a))) := by
  unfold Ensures
  rw [run_perform, h]

theorem ensures_perform_error {e : Error} (h : b.result call (answer b) = .error e) :
    Ensures (perform call answer event) b good bad ↔ bad e (b.record (event (.error e))) := by
  unfold Ensures
  rw [run_perform, h]

end Perform

/-- A query does not count among the calls that read. -/
theorem fault?_read_query (b : Board) (field : FuseField) (r : Except Error Nat) :
    (b.record (.query field r)).fault? .read = b.fault? .read := by
  have hcount : (b.record (.query field r)).count .read = b.count .read := by
    rw [count, trace_record, List.countP_append]
    rfl
  rw [fault?, hcount]
  rfl

/-- What reading a field comes to, with the calls that it makes. What the fuses hold and which faults
strike settle which of these it is. -/
inductive Reading (b : Board) (field : FuseField) (takes : Nat → Prop) :
    Except Error Bytes → Trace → Prop where
  /-- A fault strikes the query. -/
  | unasked {e : Error} (hquery : b.fault? .query = some e) :
      Reading b field takes (.error e) [.query field (.error e)]
  | missing (hquery : b.fault? .query = none) (hfield : b.fuses.field? field = none) :
      Reading b field takes (.error .notFound) [.query field (.error .notFound)]
  | refused {value : Bytes} (hquery : b.fault? .query = none)
      (hfield : b.fuses.field? field = some value) (htakes : ¬ takes value.length) :
      Reading b field takes (.error .invalid) [.query field (.ok value.length)]
  /-- A fault strikes the read. -/
  | unread {value : Bytes} {e : Error} (hquery : b.fault? .query = none)
      (hfield : b.fuses.field? field = some value) (htakes : takes value.length)
      (hread : b.fault? .read = some e) :
      Reading b field takes (.error e)
        [.query field (.ok value.length), .read field value.length (.error e)]
  | read {value : Bytes} (hquery : b.fault? .query = none)
      (hfield : b.fuses.field? field = some value) (htakes : takes value.length)
      (hread : b.fault? .read = none) :
      Reading b field takes (.ok value) (readings field value)

/-- **A reading comes to one of these things.** -/
theorem ensures_readSized_reading (field : FuseField) (takes : Nat → Prop) [DecidablePred takes]
    (b : Board) :
    Ensures (readSized field takes) b
      (fun value b' => ∃ u, b.Reading field takes (.ok value) u ∧ b' = b.recordAll u)
      (fun e b' => ∃ u, b.Reading field takes (.error e) u ∧ b' = b.recordAll u) := by
  simp only [readSized, query, Board.read, ensures_bind, ensures_require]
  cases hquery : b.fault? .query with
  | some e =>
    rw [ensures_perform_error (result_of_fault hquery _)]
    exact ⟨_, .unasked hquery, rfl⟩
  | none =>
    cases hfield : b.fuses.field? field with
    | none =>
      have hsize : b.result .query (b.fuses.size field) = .error .notFound := by
        rw [result_of_no_fault hquery, FuseBank.size, hfield]
      rw [ensures_perform_error hsize]
      exact ⟨_, .missing hquery hfield, rfl⟩
    | some value =>
      have hsize : b.result .query (b.fuses.size field) = .ok value.length := by
        rw [result_of_no_fault hquery, FuseBank.size, hfield]
      rw [ensures_perform_ok hsize]
      refine ⟨fun htakes => ?_, fun htakes => ⟨_, .refused hquery hfield htakes, rfl⟩⟩
      cases hread : b.fault? .read with
      | some e =>
        rw [ensures_perform_error (result_of_fault ((fault?_read_query ..).trans hread) _)]
        exact ⟨_, .unread hquery hfield htakes hread, record_record ..⟩
      | none =>
        have hvalue : b.fuses.read field value.length = .ok value := by
          simp [FuseBank.read, hfield]
        rw [ensures_perform_ok
          ((result_of_no_fault ((fault?_read_query ..).trans hread) _).trans hvalue)]
        exact ⟨_, .read hquery hfield htakes hread, record_record ..⟩

theorem fault?_of_faults {b : Board} (h : b.faults = []) (call : Call) : b.fault? call = none := by
  simp [fault?, h]

/-- Without faults a field of a size that is taken can be read. -/
theorem ensures_readSized (field : FuseField) (takes : Nat → Prop) [DecidablePred takes]
    (b : Board) :
    Ensures (readSized field takes) b
      (fun value b' => b.fuses.field? field = some value ∧ takes value.length ∧
        b' = b.recordAll (readings field value))
      (fun e b' => ∃ u, FailedReading field takes u e ∧ b' = b.recordAll u ∧
        (b.faults = [] → ∀ value, b.fuses.field? field = some value → ¬ takes value.length)) := by
  apply (ensures_readSized_reading field takes b).mono
  · rintro value b' ⟨u, hreading, rfl⟩
    cases hreading with
    | read _ hfield htakes => exact ⟨hfield, htakes, rfl⟩
  · rintro e b' ⟨u, hreading, rfl⟩
    cases hreading with
    | unasked hquery =>
      refine ⟨_, .unsized, rfl, fun hnone => ?_⟩
      cases hquery.symm.trans (fault?_of_faults hnone _)
    | missing _ hfield =>
      refine ⟨_, .unsized, rfl, fun _ value hvalue => ?_⟩
      cases hfield.symm.trans hvalue
    | refused _ hfield htakes =>
      refine ⟨_, .refused htakes, rfl, fun _ value hvalue => ?_⟩
      cases hfield.symm.trans hvalue
      exact htakes
    | unread _ _ htakes hread =>
      refine ⟨_, .unread htakes, rfl, fun hnone => ?_⟩
      cases hread.symm.trans (fault?_of_faults hnone _)

end SecureBoot.Board
