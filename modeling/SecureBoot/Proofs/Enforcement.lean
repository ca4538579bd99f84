import SecureBoot.Proofs.Counter
import SecureBoot.Proofs.Readings

/-!
The enforcement of rollback levels. `Rollback.Guard.Enforces` has one case for each way that it can
end, with the calls that it makes, the guard and the board that it leaves, and
`Rollback.Guard.enforces` says that there is no other.

A burn sets every bit below the level of the metadata and keeps the others, so bits that were set at
that position or past it leave the counter ahead of the metadata
(`Authenticator.enforceRollback_locks_out_iff`).
-/

namespace SecureBoot

open Step

/-- The call asks the fuses about the field. -/
def Event.Concerns (field : FuseField) : Event → Prop
  | .query f _ | .read f _ _ | .write f _ _ => f = field
  | _ => False

theorem Event.Concerns.not_isEngine {field : FuseField} {e : Event} (h : e.Concerns field) :
    e.isEngine = false := by
  cases e <;> trivial

namespace Rollback.Guard

/-- The guard finds a counter that can be read. -/
structure Reads (g : Guard) (b : Board) (value : Bytes) : Prop where
  enabled : g.state.enabled = true
  field : b.fuses.field? g.counter = some value
  length_pos : 1 ≤ value.length
  length_le : value.length ≤ 4

/-- A counter is read for its state and for its size. -/
theorem Reads.of_state {g g' : Guard} {b b' : Board} {value value' : Bytes} (h : g.Reads b value)
    (hstate : g'.state = g.state) (hfield : b'.fuses.field? g.counter = some value')
    (hlength : value'.length = value.length) : g'.Reads b' value' where
  enabled := hstate ▸ h.enabled
  field := by
    rw [counter, hstate]
    exact hfield
  length_pos := hlength ▸ h.length_pos
  length_le := hlength ▸ h.length_le

/-- The counter is behind the metadata and has not been asked to move yet. -/
structure Behind (g : Guard) (b : Board) (value : Bytes) : Prop extends g.Reads b value where
  lt : levelOf value < g.state.level
  unburned : g.burned = false

/-- The guard once it has set out to move the counter. -/
def committed (g : Guard) : Guard := { g with burned := true }

/-- The call that burns the level of the metadata into a counter. -/
def burning (g : Guard) (value : Bytes) (result : Except Error Unit) : Event :=
  .write g.counter (burnData g.state.level value.length) result

/-- How holding the metadata against the counter can end: with which outcome, guard and board. -/
inductive Enforces (g : Guard) (b : Board) : Except Error Enforcement → Guard → Board → Prop where
  | disabled (h : g.state.enabled = false) : Enforces g b (.ok .proceed) g b
  | unread {e : Error} {u : Trace} (henabled : g.state.enabled = true)
      (hfailed : Board.FailedReading g.counter (fun size => 1 ≤ size ∧ size ≤ 4) u e)
      (hreadable : b.faults = [] → ∀ value, ¬ g.Reads b value) :
      Enforces g b (.error e) g (b.recordAll u)
  | halted {value : Bytes} (h : g.Reads b value) (hlt : g.state.level < levelOf value) :
      Enforces g b (.ok .halt) g (b.recordAll (Board.readings g.counter value))
  /-- There is nothing to burn, or it has been seen to before. -/
  | kept {value : Bytes} (h : g.Reads b value) (hle : levelOf value ≤ g.state.level)
      (hburned : levelOf value < g.state.level → g.burned = true) :
      Enforces g b (.ok .proceed) g (b.recordAll (Board.readings g.counter value))
  /-- The size of the counter is asked for once more, and that call fails. -/
  | lost {value : Bytes} {e : Error} (h : g.Behind b value) :
      Enforces g b (.error e) g.committed
        (b.recordAll (Board.readings g.counter value ++ [.query g.counter (.error e)]))
  | unfit {value : Bytes} (h : g.Behind b value) (hunfit : 8 * value.length < g.state.level.toNat) :
      Enforces g b (.ok .proceed) g.committed
        (b.recordAll (Board.readings g.counter value ++ [.query g.counter (.ok value.length)]))
  | refused {value : Bytes} {e : Error} (h : g.Behind b value)
      (hfit : g.state.level.toNat ≤ 8 * value.length) :
      Enforces g b (.ok .proceed) g.committed
        (b.recordAll (Board.readings g.counter value ++
          [.query g.counter (.ok value.length), g.burning value (.error e)]))
  | burnt {value : Bytes} {bank : FuseBank} (h : g.Behind b value)
      (hfit : g.state.level.toNat ≤ 8 * value.length)
      (hwrite : b.fuses.write g.counter (burnData g.state.level value.length) = .ok bank) :
      Enforces g b (.ok .proceed) g.committed
        { b.recordAll (Board.readings g.counter value ++
          [.query g.counter (.ok value.length), g.burning value (.ok ())]) with fuses := bank }

variable {g : Guard} {b : Board}

/-- How a burn ends, after the counter has been read. -/
theorem ensures_burn {value : Bytes} (h : g.Behind b value) :
    Ensures g.burn (b.recordAll (Board.readings g.counter value))
      (fun _ => Enforces g b (.ok .proceed) g.committed)
      (fun e => Enforces g b (.error e) g.committed) := by
  have hsize : b.fuses.size g.counter = .ok value.length := by
    simp [FuseBank.size, h.field]
  simp only [burn, Board.query, ensures_bind]
  apply (Board.ensures_perform _ _ _ _).mono
  · rintro size b' ⟨hok, rfl⟩
    cases hsize.symm.trans hok
    by_cases hfit : g.state.level.toNat ≤ 8 * value.length
    · simp only [if_pos hfit, Board.write, ensures_ignoring, ensures_bind, ensures_modify]
      apply (Board.ensures_perform _ _ _ _).mono
      · rintro bank b'' ⟨hwrite, rfl⟩
        simp only [Board.record_recordAll, List.append_assoc]
        exact .burnt h hfit hwrite
      · rintro e b'' ⟨rfl, -⟩
        simp only [Board.record_recordAll, List.append_assoc]
        exact .refused h hfit
    · simp only [if_neg hfit, ensures_pure, Board.record_recordAll]
      exact .unfit h (Nat.not_le.mp hfit)
  · rintro e b' ⟨rfl, -⟩
    rw [Board.record_recordAll]
    exact .lost h

/-- **What an enforcement does** is one of these things. -/
theorem enforces (g : Guard) (b : Board) :
    Enforces g b (enforce.outcome (g, b)) (enforce.final (g, b)).1 (enforce.final (g, b)).2 := by
  suffices h : Ensures enforce (g, b) (fun r s => Enforces g b (.ok r) s.1 s.2)
      (fun e s => Enforces g b (.error e) s.1 s.2) from
    Ensures.result (p := fun r (s : Guard × Board) => Enforces g b r s.1 s.2) h
  simp only [enforce, ensures_bind, ensures_get]
  by_cases henabled : g.state.enabled = true
  · simp only [if_pos henabled, ensures_bind, onBoard, ensures_focus, hardwareLevel, ensures_map,
      Board.readWord_eq, ensures_pure]
    apply (Board.ensures_readSized g.counter _ b).mono
    · rintro value b' ⟨hfield, ⟨hpos, hle⟩, rfl⟩
      have hreads : g.Reads b value := ⟨henabled, hfield, hpos, hle⟩
      have hlevel : levelOfFuse (UInt32.ofNat (ofLE value)) = levelOf value := rfl
      rw [hlevel]
      by_cases hlt : g.state.level < levelOf value
      · rw [if_pos hlt]
        exact .halted hreads hlt
      · rw [if_neg hlt]
        by_cases hdue : levelOf value < g.state.level ∧ ¬ g.burned
        · rw [if_pos hdue]
          simp only [ensures_bind, ensures_modify, ensures_focus, ensures_pure]
          exact ensures_burn ⟨hreads, hdue.1, Bool.eq_false_iff.mpr hdue.2⟩
        · rw [if_neg hdue]
          refine .kept hreads (UInt8.not_lt.mp hlt) ?_
          intro hbehind
          by_contra hunburned
          exact hdue ⟨hbehind, hunburned⟩
    · rintro e b' ⟨u, hfailed, rfl, hreadable⟩
      refine .unread henabled hfailed ?_
      intro hnone value h
      exact hreadable hnone value h.field ⟨h.length_pos, h.length_le⟩
  · simp only [if_neg henabled, ensures_pure]
    exact .disabled (Bool.eq_false_iff.mpr henabled)

/-! ### What an enforcement leaves -/

section Enforces

variable {r : Except Error Enforcement} {g' : Guard} {b' : Board}

theorem Enforces.state (h : g.Enforces b r g' b') : g'.state = g.state := by
  cases h <;> rfl

theorem Enforces.eq_of_disabled (h : g.Enforces b r g' b') (hoff : g.state.enabled = false) :
    r = .ok .proceed ∧ g' = g ∧ b' = b := by
  have hon : ∀ {value}, ¬ g.Reads b value := by
    intro value hv
    rw [hv.enabled] at hoff
    cases hoff
  cases h with
  | disabled => exact ⟨rfl, rfl, rfl⟩
  | unread henabled =>
    rw [henabled] at hoff
    cases hoff
  | halted hv | kept hv => exact absurd hv hon
  | lost hv | unfit hv | refused hv | burnt hv => exact absurd hv.toReads hon

/-- Nothing but the counter is asked about, and nothing is written unless the boot goes on. -/
theorem Enforces.calls (h : g.Enforces b r g' b') :
    ∃ u, b'.trace = b.trace ++ u ∧ (∀ e ∈ u, e.Concerns g.counter) ∧
      (r ≠ .ok .proceed → ∀ e ∈ u, e.isLook) := by
  have hreadings : ∀ value, ∀ e ∈ Board.readings g.counter value, e.Concerns g.counter := by
    simp [Board.readings, Event.Concerns]
  cases h with
  | disabled => exact ⟨[], (List.append_nil _).symm, by simp⟩
  | unread _ hfailed =>
    refine ⟨_, rfl, ?_, fun _ => hfailed.isLook⟩
    cases hfailed <;> simp [Event.Concerns]
  | halted | kept => exact ⟨_, rfl, hreadings _, fun _ => Board.isLook_of_mem_readings⟩
  | lost =>
    refine ⟨_, rfl, List.forall_mem_append.mpr ⟨hreadings _, ?_⟩, fun _ =>
      List.forall_mem_append.mpr ⟨Board.isLook_of_mem_readings, ?_⟩⟩
    · simp [Event.Concerns]
    · simp [Event.isLook]
  | unfit | refused | burnt =>
    refine ⟨_, rfl, List.forall_mem_append.mpr ⟨hreadings _, ?_⟩, absurd rfl⟩
    simp [Event.Concerns, burning]

theorem Enforces.trace (h : g.Enforces b r g' b') : ∃ u, b'.trace = b.trace ++ u :=
  h.calls.imp fun _ hcalls => hcalls.1

theorem Enforces.grows (h : g.Enforces b r g' b') : b.fuses.Grows b'.fuses := by
  cases h with
  | burnt _ _ hwrite =>
    obtain ⟨_, _, _, _, _, _, hgrows⟩ := FuseBank.write_eq_ok hwrite
    exact hgrows
  | disabled | unread | halted | kept | lost | unfit | refused => exact .refl _

/-- A boot that can read its counter halts because its metadata is behind, and without faults nothing
keeps it from halting then. -/
theorem Enforces.halt_iff (h : g.Enforces b r g' b') {value : Bytes} (hreads : g.Reads b value) :
    (r = .ok .halt → g.state.level < levelOf value) ∧
      (b.faults = [] → g.state.level < levelOf value → r = .ok .halt) := by
  have hsame : ∀ {v}, g.Reads b v → v = value := fun hv =>
    Option.some.inj (hv.field.symm.trans hreads.field)
  constructor
  · rintro rfl
    cases h with
    | halted hv hlt => exact hsame hv ▸ hlt
  · intro hfaults hlt
    have hahead : ∀ {v}, g.Reads b v → ¬ levelOf v ≤ g.state.level := fun hv =>
      hsame hv ▸ UInt8.not_le.mpr hlt
    cases h with
    | disabled hdisabled => exact absurd hreads.enabled (by rw [hdisabled]; decide)
    | unread _ _ hreadable => exact absurd hreads (hreadable hfaults value)
    | halted => rfl
    | kept hv hle => exact absurd hle (hahead hv)
    | lost hv | unfit hv | refused hv | burnt hv =>
      exact absurd (UInt8.le_of_lt hv.lt) (hahead hv.toReads)

/-- **A boot that goes on** has kept the counter where it was, not past the metadata, or has burned
the level of the metadata into it. -/
theorem Enforces.counter_after (h : g.Enforces b (.ok .proceed) g' b')
    (henabled : g.state.enabled = true) :
    ∃ value, g.Reads b value ∧
      (b'.fuses.field? g.counter = some value ∧ levelOf value ≤ g.state.level ∨
        g.Behind b value ∧ g.state.level.toNat ≤ 8 * value.length ∧ b'.fuses.field? g.counter =
          some (FuseBank.burned value (burnData g.state.level value.length))) := by
  cases h with
  | disabled hdisabled =>
    rw [hdisabled] at henabled
    cases henabled
  | kept hv hle => exact ⟨_, hv, .inl ⟨hv.field, hle⟩⟩
  | unfit hv | refused hv => exact ⟨_, hv.toReads, .inl ⟨hv.field, UInt8.le_of_lt hv.lt⟩⟩
  | burnt hv hfit hwrite =>
    obtain ⟨_, value', -, hfield, -, hburned, -⟩ := FuseBank.write_eq_ok hwrite
    cases hv.field.symm.trans hfield
    exact ⟨_, hv.toReads, .inr ⟨hv, hfit, hburned⟩⟩

end Enforces

end Rollback.Guard

/-! ### Being locked out -/

namespace Authenticator

open Rollback (Guard levelOf burnData strays)

theorem enforces (a : Authenticator) :
    a.guard.Enforces a.board (enforceRollback.outcome a) (enforceRollback.final a).guard
      (enforceRollback.final a).board := by
  unfold enforceRollback
  rw [outcome_focus, final_focus]
  exact a.guard.enforces a.board

/-- **A boot that goes on locks the next one out** if it has moved the counter and a bit of the counter
was set at the level of the metadata or past it, and in no other case. -/
theorem enforceRollback_locks_out_iff {a : Authenticator} (henabled : a.guard.state.enabled = true)
    (hproceeds : enforceRollback.outcome a = .ok .proceed) :
    let a' := enforceRollback.final a
    let level := a.guard.state.level
    ∃ value value', a.board.fuses.field? a.guard.counter = some value ∧
      a'.board.fuses.field? a.guard.counter = some value' ∧
      (level < levelOf value' ↔
        value' ≠ value ∧ ∃ i, level.toNat ≤ i ∧ (ofLE value).testBit i = true) ∧
      ∀ next : Authenticator, next.guard.state = a'.guard.state →
        next.board.fuses = a'.board.fuses →
        (enforceRollback.outcome next = .ok .halt → level < levelOf value') ∧
        (next.board.faults = [] → level < levelOf value' →
          enforceRollback.outcome next = .ok .halt) := by
  intro a' level
  have henforces := a.enforces
  rw [hproceeds] at henforces
  have hstate : a'.guard.state = a.guard.state := henforces.state
  obtain ⟨value, hreads, hafter⟩ := henforces.counter_after henabled
  have hnext : ∀ value', a'.board.fuses.field? a.guard.counter = some value' →
      value'.length = value.length →
      ∀ next : Authenticator, next.guard.state = a'.guard.state →
        next.board.fuses = a'.board.fuses →
        (enforceRollback.outcome next = .ok .halt → level < levelOf value') ∧
        (next.board.faults = [] → level < levelOf value' →
          enforceRollback.outcome next = .ok .halt) := by
    intro value' hfield hlength next hsame hfuses
    rw [hstate] at hsame
    have hread : next.guard.Reads next.board value' :=
      hreads.of_state hsame (hfuses ▸ hfield) hlength
    have hhalt := next.enforces.halt_iff hread
    rw [hsame] at hhalt
    exact hhalt
  rcases hafter with ⟨hkept, hle⟩ | ⟨hbehind, hfit, hburned⟩
  · refine ⟨value, value, hreads.field, hkept, ?_, ?_⟩
    · constructor
      · intro hlt
        exact absurd hle (UInt8.not_le.mpr hlt)
      · rintro ⟨hmoved, -⟩
        exact absurd rfl hmoved
    · exact hnext value hkept rfl
  · have hlength : (FuseBank.burned value (burnData level value.length)).length = value.length :=
      FuseBank.length_burned (by simp)
    have hmoved : FuseBank.burned value (burnData level value.length) ≠ value := by
      intro hsame
      have hle := Rollback.le_levelOf_burned hreads.length_le hfit
      rw [hsame] at hle
      exact absurd hbehind.lt (UInt8.not_lt.mpr hle)
    refine ⟨value, _, hreads.field, hburned, ?_, ?_⟩
    · rw [Rollback.lt_levelOf_burned_iff hreads.length_le hfit]
      exact (and_iff_right hmoved).symm
    · exact hnext _ hburned hlength

/-- Firmware of level 2 on a part whose counter has a single bit set, the last of its eight. -/
def strayBit : Authenticator :=
  fresh .t194 (.fresh { FuseBank.blank with counters := [[0x80]] } [])
    { enabled := true, fuseIndex := 0, level := 2, floor := fun _ => 0 }

theorem enforceRollback_locks_out_strayBit :
    strayBit.guard.state.enabled = true ∧ enforceRollback.outcome strayBit = .ok .proceed ∧
      ∃ value value', strayBit.board.fuses.field? strayBit.guard.counter = some value ∧
        (enforceRollback.final strayBit).board.fuses.field? strayBit.guard.counter = some value' ∧
        (strayBit.guard.state.level < levelOf value' ↔
          value' ≠ value ∧ ∃ i, strayBit.guard.state.level.toNat ≤ i ∧
            (ofLE value).testBit i = true) := by
  have henabled : strayBit.guard.state.enabled = true := rfl
  have hproceeds : enforceRollback.outcome strayBit = .ok .proceed := by decide
  obtain ⟨value, value', hvalue, hvalue', hlocked, -⟩ :=
    enforceRollback_locks_out_iff henabled hproceeds
  exact ⟨henabled, hproceeds, value, value', hvalue, hvalue', hlocked⟩

/-- A burn that has answered that the boot goes on can halt the next enforcement, in the same boot as
well as in a new one. -/
theorem enforceRollback_not_repeatable :
    enforceRollback.outcome strayBit = .ok .proceed ∧
      (enforceRollback.final strayBit).board.fuses.counters = [[0x83]] ∧
      strayBit.guard.state.level < levelOf [0x83] ∧
      enforceRollback.outcome (enforceRollback.final strayBit) = .ok .halt ∧
      enforceRollback.outcome (fresh .t194 (.fresh (enforceRollback.final strayBit).board.fuses [])
        strayBit.guard.state) = .ok .halt := by
  decide

end Authenticator

end SecureBoot
