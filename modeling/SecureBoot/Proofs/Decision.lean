import SecureBoot.Proofs.FuseService

/-!
The decision of the guard against rollback. It is settled by the level of the metadata and by what reading
the counter comes to (`Board.wordReading`): how many of its bits are set (`Rollback.setBits`), wherever
they are and however many bytes it has. If the counter has to move, what comes of the burn has no bearing
on the answer, as long as the size of the counter can be asked for once more (`Rollback.Guard.answer`).
-/

namespace SecureBoot

open Step

/-! ### Set bits -/

namespace Rollback

/-- How many bits are set, byte by byte. -/
def setBits : Bytes → Nat
  | [] => 0
  | byte :: rest => (List.range 8).countP byte.toNat.testBit + setBits rest

theorem countP_testBit_ofLE (value : Bytes) :
    (List.range (8 * value.length)).countP (ofLE value).testBit = setBits value := by
  induction value with
  | nil => rfl
  | cons byte rest ih =>
    have hlength : 8 * (byte :: rest).length = 8 + 8 * rest.length := by
      rw [List.length_cons, Nat.mul_succ, Nat.add_comm]
    have hlow : (List.range 8).countP (ofLE (byte :: rest)).testBit =
        (List.range 8).countP byte.toNat.testBit := by
      refine List.countP_congr fun i hi => ?_
      have hlt := List.mem_range.mp hi
      rw [testBit_ofLE, Nat.div_eq_of_lt hlt, Nat.mod_eq_of_lt hlt]
      rfl
    have hhigh : (ofLE (byte :: rest)).testBit ∘ (8 + ·) = (ofLE rest).testBit := by
      funext i
      rw [Function.comp_apply, testBit_ofLE, testBit_ofLE, Nat.add_div_left _ (by decide),
        Nat.add_mod_left, List.getD_cons_succ]
    rw [hlength, List.range_add, List.countP_append, List.countP_map, hlow, hhigh, ih]
    rfl

/-- A counter is at the level of its set bits. -/
theorem toNat_levelOf_eq_setBits {value : Bytes} (h : value.length ≤ 4) :
    (levelOf value).toNat = setBits value := by
  have hsplit : 32 = 8 * value.length + (32 - 8 * value.length) := by omega
  rw [toNat_levelOf h, bitsSet, hsplit, List.range_add, List.countP_append, countP_testBit_ofLE,
    List.countP_eq_zero.mpr, Nat.add_zero]
  intro i hi
  obtain ⟨j, -, rfl⟩ := List.mem_map.mp hi
  rw [testBit_ofLE_of_le (Nat.le_add_right ..)]
  exact Bool.false_ne_true

theorem lt_levelOf_iff {value : Bytes} (h : value.length ≤ 4) (level : UInt8) :
    level < levelOf value ↔ level.toNat < setBits value := by
  rw [UInt8.lt_iff_toNat_lt, toNat_levelOf_eq_setBits h]

theorem levelOf_lt_iff {value : Bytes} (h : value.length ≤ 4) (level : UInt8) :
    levelOf value < level ↔ setBits value < level.toNat := by
  rw [UInt8.lt_iff_toNat_lt, toNat_levelOf_eq_setBits h]

end Rollback

/-! ### What a reading comes to -/

namespace Board

/-- What reading a field of one to four bytes comes to. -/
def wordReading (b : Board) (field : FuseField) : Except Error Bytes := do
  let size ← b.result .query (b.fuses.size field)
  if 1 ≤ size ∧ size ≤ 4 then b.result .read (b.fuses.read field size) else throw .invalid

theorem Reading.wordReading_eq {b : Board} {field : FuseField} {r : Except Error Bytes} {u : Trace}
    (h : b.Reading field (fun size => 1 ≤ size ∧ size ≤ 4) r u) : b.wordReading field = r := by
  have hsized : ∀ {value}, b.fault? .query = none → b.fuses.field? field = some value →
      b.wordReading field = if 1 ≤ value.length ∧ value.length ≤ 4 then
        b.result .read (.ok value) else .error .invalid := by
    intro value hquery hfield
    rw [wordReading, result_of_no_fault hquery, FuseBank.size, hfield]
    simp only [bind, Except.bind, FuseBank.read, hfield, if_pos]
    rfl
  cases h with
  | unasked hquery =>
    rw [wordReading, result_of_fault hquery]
    rfl
  | missing hquery hfield =>
    rw [wordReading, result_of_no_fault hquery, FuseBank.size, hfield]
    rfl
  | refused hquery hfield htakes => rw [hsized hquery hfield, if_neg htakes]
  | unread hquery hfield htakes hread =>
    rw [hsized hquery hfield, if_pos htakes, result_of_fault hread]
  | read hquery hfield htakes hread =>
    rw [hsized hquery hfield, if_pos htakes, result_of_no_fault hread]

theorem ensures_readSized_word (field : FuseField) (b : Board) :
    Ensures (readSized field fun size => 1 ≤ size ∧ size ≤ 4) b
      (fun value _ => b.wordReading field = .ok value)
      (fun e _ => b.wordReading field = .error e) :=
  (ensures_readSized_reading field _ b).mono (fun _ _ ⟨_, hreading, _⟩ => hreading.wordReading_eq)
    fun _ _ ⟨_, hreading, _⟩ => hreading.wordReading_eq

end Board

namespace Rollback.Guard

variable {g : Guard} {b : Board}

/-! ### The answer -/

/-- The answer of an enabled guard that has read its counter, given the fault that will strike the next
query. -/
def answer (g : Guard) (value : Bytes) (fault : Option Error) : Except Error Enforcement :=
  if g.state.level.toNat < setBits value then .ok .halt
  else if setBits value < g.state.level.toNat ∧ g.burned = false then
    match fault with
    | some e => .error e
    | none => .ok .proceed
  else .ok .proceed

theorem answer_of_ahead {value : Bytes} (h : g.state.level.toNat < setBits value)
    (fault : Option Error) : g.answer value fault = .ok .halt :=
  if_pos h

/-- A burn that is due is answered for by the query ahead of it. -/
theorem answer_of_due {value : Bytes} (h : setBits value < g.state.level.toNat)
    (hburned : g.burned = false) (fault : Option Error) :
    g.answer value fault = fault.elim (.ok .proceed) .error := by
  unfold answer
  rw [if_neg (Nat.not_lt_of_lt h), if_pos ⟨h, hburned⟩]
  cases fault <;> rfl

theorem answer_of_kept {value : Bytes} (h : ¬ g.state.level.toNat < setBits value)
    (hkept : ¬ (setBits value < g.state.level.toNat ∧ g.burned = false)) (fault : Option Error) :
    g.answer value fault = .ok .proceed := by
  unfold answer
  rw [if_neg h, if_neg hkept]

theorem answer_eq_halt_iff (g : Guard) (value : Bytes) (fault : Option Error) :
    g.answer value fault = .ok .halt ↔ g.state.level.toNat < setBits value := by
  refine ⟨fun h => ?_, fun hahead => answer_of_ahead hahead fault⟩
  by_contra hahead
  by_cases hdue : setBits value < g.state.level.toNat ∧ g.burned = false
  · rw [answer_of_due hdue.1 hdue.2] at h
    cases fault <;> cases h
  · rw [answer_of_kept hahead hdue] at h
    cases h

theorem answer_eq_proceed_iff (g : Guard) (value : Bytes) (fault : Option Error) :
    g.answer value fault = .ok .proceed ↔ setBits value ≤ g.state.level.toNat ∧
      (setBits value < g.state.level.toNat → g.burned = false → fault = none) := by
  by_cases hahead : g.state.level.toNat < setBits value
  · rw [answer_of_ahead hahead]
    exact ⟨nofun, fun h => absurd h.1 (Nat.not_le_of_lt hahead)⟩
  · have hle : setBits value ≤ g.state.level.toNat := Nat.le_of_not_lt hahead
    by_cases hdue : setBits value < g.state.level.toNat ∧ g.burned = false
    · rw [answer_of_due hdue.1 hdue.2]
      cases fault <;> simp [hdue, hle]
    · rw [answer_of_kept hahead hdue]
      exact ⟨fun _ => ⟨hle, fun hlt hburned => absurd ⟨hlt, hburned⟩ hdue⟩, fun _ => rfl⟩

theorem answer_eq_error_iff (g : Guard) (value : Bytes) (fault : Option Error) (e : Error) :
    g.answer value fault = .error e ↔
      setBits value < g.state.level.toNat ∧ g.burned = false ∧ fault = some e := by
  by_cases hahead : g.state.level.toNat < setBits value
  · rw [answer_of_ahead hahead]
    exact ⟨nofun, fun h => absurd hahead (Nat.not_lt_of_lt h.1)⟩
  · by_cases hdue : setBits value < g.state.level.toNat ∧ g.burned = false
    · rw [answer_of_due hdue.1 hdue.2]
      cases fault <;> simp [hdue]
    · rw [answer_of_kept hahead hdue]
      exact ⟨nofun, fun h => absurd ⟨h.1, h.2.1⟩ hdue⟩

/-- The fault that will strike a query once the counter has been read. -/
abbrev laterFault (g : Guard) (b : Board) (value : Bytes) : Option Error :=
  (b.recordAll (Board.readings g.counter value)).fault? .query

/-- The answer has to do with nothing but the counter and that fault. -/
structure Answers (g : Guard) (b : Board) (r : Except Error Enforcement) : Prop where
  unread : ∀ e, b.wordReading g.counter = .error e → r = .error e
  read : ∀ value, b.wordReading g.counter = .ok value → r = g.answer value (g.laterFault b value)

/-- However a burn ends, only the query ahead of it is answered for. -/
theorem ensures_burn_answer {value : Bytes} (h : g.Behind b value) :
    Ensures g.burn (b.recordAll (Board.readings g.counter value))
      (fun _ _ => g.laterFault b value = none) (fun e _ => g.laterFault b value = some e) := by
  have hsize : b.fuses.size g.counter = .ok value.length := by
    simp [FuseBank.size, h.field]
  simp only [burn, Board.query, ensures_bind]
  cases hfault : g.laterFault b value with
  | some e =>
    rw [Board.ensures_perform_error (Board.result_of_fault hfault _)]
  | none =>
    rw [Board.ensures_perform_ok ((Board.result_of_no_fault hfault _).trans hsize)]
    split
    · rw [ensures_ignoring]
      exact (ensures_exec _ _).mono (fun _ _ _ => rfl) fun _ _ _ => rfl
    · rfl

/-- **The answer of an enabled guard.** -/
theorem answers (henabled : g.state.enabled = true) (b : Board) :
    g.Answers b (enforce.outcome (g, b)) := by
  suffices h : Ensures enforce (g, b) (fun r _ => g.Answers b (.ok r))
      (fun e _ => g.Answers b (.error e)) from
    Ensures.result (p := fun r (_ : Guard × Board) => g.Answers b r) h
  simp only [enforce, ensures_bind, ensures_get, if_pos henabled, onBoard, ensures_focus,
    hardwareLevel, ensures_map, Board.readWord_eq, ensures_pure]
  refine ((Board.ensures_readSized g.counter _ b).and
    (Board.ensures_readSized_word g.counter b)).mono ?_ ?_
  · rintro value b' ⟨⟨hfield, ⟨hpos, hle⟩, rfl⟩, hreading⟩
    have hanswers : ∀ {r}, r = g.answer value (g.laterFault b value) → g.Answers b r := by
      rintro _ rfl
      refine ⟨fun e herror => ?_, fun v hv => ?_⟩
      · cases hreading.symm.trans herror
      · cases hreading.symm.trans hv
        rfl
    have hlevel : levelOfFuse (UInt32.ofNat (ofLE value)) = levelOf value := rfl
    rw [hlevel]
    by_cases hahead : g.state.level < levelOf value
    · rw [if_pos hahead]
      refine hanswers ?_
      rw [answer_of_ahead ((lt_levelOf_iff hle _).mp hahead)]
    · rw [if_neg hahead]
      by_cases hdue : levelOf value < g.state.level ∧ ¬ g.burned
      · have hunburned : g.burned = false := Bool.eq_false_iff.mpr hdue.2
        have hbehind : g.Behind b value := ⟨⟨henabled, hfield, hpos, hle⟩, hdue.1, hunburned⟩
        have hbits := (levelOf_lt_iff hle _).mp hdue.1
        rw [if_pos hdue]
        simp only [ensures_bind, ensures_modify, ensures_focus, ensures_pure]
        refine (ensures_burn_answer hbehind).mono (fun _ _ hnone => hanswers ?_)
          fun e _ hfault => hanswers ?_
        · rw [answer_of_due hbits hunburned, hnone]
          rfl
        · rw [answer_of_due hbits hunburned, hfault]
          rfl
      · have hkept : ¬ (setBits value < g.state.level.toNat ∧ g.burned = false) := fun hboth =>
          hdue ⟨(levelOf_lt_iff hle _).mpr hboth.1, Bool.eq_false_iff.mp hboth.2⟩
        rw [if_neg hdue]
        refine hanswers ?_
        rw [answer_of_kept (mt (lt_levelOf_iff hle _).mpr hahead) hkept]
  · rintro e b' ⟨-, hreading⟩
    refine ⟨fun e' herror => ?_, fun v hv => ?_⟩
    · cases hreading.symm.trans herror
      rfl
    · cases hreading.symm.trans hv

end Rollback.Guard

namespace Authenticator

open Rollback (setBits)
open Rollback.Guard (checkedEnforce enforceOn)

/-- **The decision about rollback.** A guard that is disabled lets the boot go on without a call. An
enabled one passes on the error if its counter cannot be read; otherwise it halts exactly if more bits of
the counter are set than the metadata's level, and fails exactly if a fault strikes the query ahead of a
burn. So a boot goes on even if the burn fails or the level does not fit. Only a boot that goes on has
written anything, the engine is never asked, and nothing is sliced out of range on any fuses that give
the counter the same size throughout. -/
theorem enforceRollback_decides (a : Authenticator) :
    let g := a.guard
    let b := a.board
    let level := g.state.level.toNat
    let r := enforceRollback.outcome a
    (∃ u, (enforceRollback.final a).board.trace = b.trace ++ u ∧ (∀ e ∈ u, e.isEngine = false) ∧
      (r ≠ .ok .proceed → ∀ e ∈ u, e.isWrite = false) ∧
      (g.state.enabled = false → r = .ok .proceed ∧ u = [])) ∧
    (g.state.enabled = true →
      (∀ e, b.wordReading g.counter = .error e → r = .error e) ∧
      ∀ value, b.wordReading g.counter = .ok value →
        let fault := g.laterFault b value
        (r = .ok .halt ↔ level < setBits value) ∧
        (r = .ok .proceed ↔ setBits value ≤ level ∧
          (setBits value < level → g.burned = false → fault = none)) ∧
        ∀ e, r = .error e ↔ setBits value < level ∧ g.burned = false ∧ fault = some e) ∧
    enforceOn Board.service = Rollback.Guard.enforce ∧
    ∀ (σ : Type) (fuses : FuseService σ) (s : σ), fuses.Steady g.counter s →
      (checkedEnforce fuses).exec (g, s) = some ((enforceOn fuses).exec (g, s)) := by
  intro g b level r
  have henforces := a.enforces
  obtain ⟨u, htrace, hcounter, hlooks⟩ := henforces.calls
  refine ⟨⟨u, htrace, fun e he => (hcounter e he).not_isEngine,
    fun hstops e he => Event.not_isWrite_of_isLook (hlooks hstops e he), fun hdisabled => ?_⟩,
    fun henabled => ?_, Rollback.Guard.enforceOn_service,
    fun σ fuses s h => Rollback.Guard.agrees_checkedEnforce h⟩
  · obtain ⟨hproceeds, -, hsame⟩ := henforces.eq_of_disabled hdisabled
    rw [hsame] at htrace
    exact ⟨hproceeds, List.self_eq_append_right.mp htrace⟩
  · have hanswers : g.Answers b r := by
      change g.Answers b (enforceRollback.outcome a)
      unfold enforceRollback
      rw [outcome_focus]
      exact Rollback.Guard.answers henabled b
    refine ⟨hanswers.unread, fun value hvalue => ?_⟩
    rw [hanswers.read value hvalue]
    exact ⟨g.answer_eq_halt_iff value _, g.answer_eq_proceed_iff value _, g.answer_eq_error_iff value _⟩

/-- A guard that is disabled, a counter that is too wide, and a counter with a bit out of place, whose
size cannot be asked for a second time. -/
theorem enforceRollback_decides_lost :
    let bank := { FuseBank.blank with counters := [[0x01, 0x80]] }
    let wide := { FuseBank.blank with counters := [List.replicate 5 0x00] }
    let state : Rollback.State := { enabled := true, fuseIndex := 0, level := 3, floor := fun _ => 0 }
    let idle := fresh .t194 (.fresh bank []) { state with enabled := false }
    let stuck := fresh .t194 (.fresh wide []) state
    let struck := fresh .t194 (.fresh bank [⟨.query, 1, .hardware⟩]) state
    enforceRollback.outcome idle = .ok .proceed ∧
      enforceRollback.outcome stuck = .error .invalid ∧
      setBits [0x01, 0x80] = 2 ∧ enforceRollback.outcome struck = .error .hardware ∧
      (checkedEnforce Board.service).exec (struck.guard, struck.board) =
        some (Rollback.Guard.enforce.exec (struck.guard, struck.board)) := by
  intro bank wide state idle stuck struck
  obtain ⟨⟨_, -, -, -, hidle⟩, -⟩ := enforceRollback_decides idle
  have hstuck := ((enforceRollback_decides stuck).2.1 rfl).1 .invalid (by decide)
  obtain ⟨-, hstruck, hservice, hslices⟩ := enforceRollback_decides struck
  obtain ⟨-, -, hlost⟩ := (hstruck rfl).2 [0x01, 0x80] (by decide)
  refine ⟨(hidle rfl).1, hstuck, by decide, (hlost .hardware).mpr (by decide), ?_⟩
  have hsteady : Board.service.Steady struck.guard.counter struck.board := Board.steady_service _ _
  rw [hslices Board Board.service struck.board hsteady, hservice]

end Authenticator

end SecureBoot
