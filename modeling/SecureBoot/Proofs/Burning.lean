import Mathlib.Data.List.Pairwise
import SecureBoot.Proofs.Turns

/-!
What is burned over a flow. Fuses do not forgive, so it matters that whatever is asked of an
authenticator it issues a single write at most, and which one (`Authenticator.writes_at_most_once`).

That write can also be missing. A guard that has set out to move its counter does so no more, even if
it was kept from asking the counter: an enforcement that fails between the reading of the counter and
the burn loses the burn for the rest of the flow (`Authenticator.writes_iff_not_lost`).
-/

namespace SecureBoot

open Rollback (Guard levelOf burnData Enforcement)

/-! ### The burn of one enforcement -/

namespace Rollback.Guard

variable {g g' : Guard} {b b' : Board} {r : Except Error Enforcement} {u : Trace}

/-- The calls are those of a burn, and the counter that it leaves. -/
structure Burns (g : Guard) (b b' : Board) (u : Trace) (value : Bytes)
    (result : Except Error Unit) : Prop extends g.Behind b value where
  fits : g.state.level.toNat ≤ 8 * value.length
  calls : u = Board.readings g.counter value ++
    [.query g.counter (.ok value.length), g.burning value result]
  field_after : result = .ok () → b'.fuses.field? g.counter =
    some (FuseBank.burned value (burnData g.state.level value.length))

theorem exists_write (g : Guard) (calls : Trace) (size : Nat) (value : Bytes)
    (result : Except Error Unit) :
    ∃ e ∈ calls ++ [.query g.counter (.ok size), g.burning value result], e.isWrite = true :=
  ⟨_, List.mem_append_right _ (List.mem_cons_of_mem _ List.mem_cons_self), rfl⟩

/-- A boot that goes on with its counter behind has had a write issued, or had set out to burn before. -/
theorem Enforces.pending {value : Bytes} (h : g.Enforces b (.ok .proceed) g' b')
    (hu : b'.trace = b.trace ++ u) (henabled : g.state.enabled = true)
    (hread : .read g.counter value.length (.ok value) ∈ u) (hlt : levelOf value < g.state.level)
    (hfit : g.state.level.toNat ≤ 8 * value.length) :
    g.burned = true ∧ g.Reads b value ∨ ∃ e ∈ u, e.isWrite = true := by
  cases h with
  | disabled hdisabled =>
    rw [hdisabled] at henabled
    cases henabled
  | kept hv hle hburned =>
    rw [← List.append_cancel_left hu] at hread
    obtain rfl := Board.eq_of_mem_readings hread
    exact .inl ⟨hburned hlt, hv⟩
  | unfit hv hunfit =>
    rw [← List.append_cancel_left hu] at hread
    rcases List.mem_append.mp hread with hread | hquery
    · obtain rfl := Board.eq_of_mem_readings hread
      exact absurd hfit (Nat.not_le.mpr hunfit)
    · cases List.mem_singleton.mp hquery
  | refused | burnt =>
    rw [← List.append_cancel_left hu]
    exact .inr (exists_write ..)

/-- The calls of a burn that is lost tell that the guard has set out to burn. -/
theorem Enforces.committed_of_lost {field : FuseField} {value : Bytes} {e : Error}
    (h : g.Enforces b r g' b')
    (hu : b'.trace = b.trace ++ (Board.readings field value ++ [.query field (.error e)])) :
    g' = g.committed := by
  cases h with
  | lost | unfit | refused | burnt => rfl
  | disabled =>
    have hlength := congrArg List.length hu
    simp [Board.readings] at hlength
  | unread _ hfailed =>
    have hlength := congrArg List.length (List.append_cancel_left hu)
    cases hfailed <;> simp [Board.readings] at hlength
  | halted | kept =>
    have hlength := congrArg List.length (List.append_cancel_left hu)
    simp [Board.readings] at hlength

/-- A guard that sets out to burn loses the burn, has no room for the level or writes. -/
theorem Enforces.commits (h : g.Enforces b r g' b') (hu : b'.trace = b.trace ++ u)
    (hunburned : g.burned = false) (hburned : g'.burned = true) :
    ∃ value, g.Behind b value ∧
      ((∃ e, u = Board.readings g.counter value ++ [.query g.counter (.error e)]) ∨
        8 * value.length < g.state.level.toNat ∨ ∃ e ∈ u, e.isWrite = true) := by
  cases h with
  | disabled | unread | halted | kept =>
    rw [hunburned] at hburned
    cases hburned
  | lost hv => exact ⟨_, hv, .inl ⟨_, (List.append_cancel_left hu).symm⟩⟩
  | unfit hv hunfit => exact ⟨_, hv, .inr (.inl hunfit)⟩
  | refused hv | burnt hv =>
    refine ⟨_, hv, .inr (.inr ?_)⟩
    rw [← List.append_cancel_left hu]
    exact exists_write ..

/-- An enforcement that writes burns the level of the metadata, once. -/
theorem Enforces.burns (h : g.Enforces b r g' b') (hu : b'.trace = b.trace ++ u) :
    (∃ value result, g.Burns b b' u value result ∧ g' = g.committed) ∨
      ∀ e ∈ u, e.isWrite = false := by
  cases h with
  | disabled =>
    rw [List.self_eq_append_right.mp hu]
    exact .inr fun e he => absurd he List.not_mem_nil
  | unread _ hfailed =>
    rw [← List.append_cancel_left hu]
    exact .inr fun e he => Event.not_isWrite_of_isLook (hfailed.isLook e he)
  | halted | kept | lost | unfit =>
    rw [← List.append_cancel_left hu]
    exact .inr (by simp [Board.readings, Event.isWrite])
  | refused hv hfit =>
    refine .inl ⟨_, _, ⟨hv, hfit, (List.append_cancel_left hu).symm, ?_⟩, rfl⟩
    intro hok
    cases hok
  | burnt hv hfit hwrite =>
    obtain ⟨_, value', -, hfield, -, hburned, -⟩ := FuseBank.write_eq_ok hwrite
    cases hv.field.symm.trans hfield
    exact .inl ⟨_, _, ⟨hv, hfit, (List.append_cancel_left hu).symm, fun _ => hburned⟩, rfl⟩

namespace Burns

variable {value : Bytes} {result : Except Error Unit}

theorem countP_calls (h : g.Burns b b' u value result) : u.countP (·.isWrite) = 1 := by
  rw [h.calls]
  rfl

/-- A burn never lowers the level of the counter, and takes it to that of the metadata at least. -/
theorem level_after (h : g.Burns b b' u value result) (hok : result = .ok ()) :
    ∃ value', b'.fuses.field? g.counter = some value' ∧ levelOf value ≤ levelOf value' ∧
      g.state.level ≤ levelOf value' := by
  refine ⟨_, h.field_after hok, ?_, ?_⟩
  · exact levelOf_le_levelOf h.length_le (FuseBank.raises_burned (by simp))
  · exact le_levelOf_burned h.length_le h.fits

end Burns

end Rollback.Guard

namespace Authenticator

variable {a : Authenticator}

/-! ### At most one write -/

/-- A request has a burn made or has nothing written. -/
theorem Serves.burns {r : Request} {answer : Answer} {a' : Authenticator} {u : Trace}
    (h : a.Serves r answer a') (hu : a'.board.trace = a.board.trace ++ u) :
    (∃ value result, r = .enforceRollback ∧ a'.guard = a.guard.committed ∧
      a.guard.Burns a.board a'.board u value result) ∨ ∀ e ∈ u, e.isWrite = false := by
  have hquiet : a.board.Extends (fun e => e.isWrite = false) a'.board →
      ∀ e ∈ u, e.isWrite = false := by
    intro hextends
    obtain ⟨v, hv, hcalls⟩ := hextends.calls
    rw [List.append_cancel_left (hu.symm.trans hv)]
    exact hcalls
  cases h with
  | enforced h =>
    rcases h.burns hu with ⟨value, result, hburns, hguard⟩ | hnone
    · exact .inl ⟨value, result, rfl, hguard, hburns⟩
    · exact .inr hnone
  | bypassed _ h => exact .inr (hquiet h)
  | replaced =>
    rw [List.self_eq_append_right.mp hu]
    exact .inr fun e he => absurd he List.not_mem_nil
  | aside _ _ _ h => exact .inr (hquiet h.board)

theorem Turn.burns (t : Turn) :
    (∃ value result, t.request = .enforceRollback ∧ t.after.guard = t.before.guard.committed ∧
      t.before.guard.Burns t.before.board t.after.board t.calls value result) ∨
        ∀ e ∈ t.calls, e.isWrite = false :=
  t.serves.burns t.trace_after

/-- A guard that has set out to burn never writes again, and another one writes once. -/
theorem countP_writes_le (a : Authenticator) (requests : List Request) :
    ((a.turns requests).flatMap Turn.calls).countP (·.isWrite) + a.guard.burned.toNat ≤ 1 := by
  induction requests generalizing a with
  | nil =>
    have hle := a.guard.burned.toNat_le
    simpa [turns] using hle
  | cons r rest ih =>
    have hrest : ((if (a.answer r).1.halts then [] else (a.answer r).2.turns rest).flatMap
        Turn.calls).countP (·.isWrite) + (a.answer r).2.guard.burned.toNat ≤ 1 := by
      split
      · have hle := (a.answer r).2.guard.burned.toNat_le
        simpa using hle
      · exact ih _
    simp only [turns, List.flatMap_cons, List.countP_append]
    rcases (Turn.mk a r).burns with ⟨value, result, -, hguard, hburns⟩ | hquiet
    · have hcommitted : (a.answer r).2.guard.burned = true := congrArg Guard.burned hguard
      have hunburned : a.guard.burned = false := hburns.unburned
      rw [hcommitted] at hrest
      rw [hburns.countP_calls, hunburned]
      simp only [Bool.toNat_true, Bool.toNat_false] at hrest ⊢
      omega
    · have hnone : (Turn.calls ⟨a, r⟩).countP (·.isWrite) = 0 :=
        List.countP_eq_zero.mpr fun e he => by simp [hquiet e he]
      have hkept : a.guard.burned = true → (a.answer r).2.guard.burned = true :=
        (a.serves r).follows.burned
      cases hburned : a.guard.burned with
      | false =>
        simp only [Bool.toNat_false]
        omega
      | true =>
        rw [hkept hburned] at hrest
        omega

/-- The turn has the level of a rollback state burned into the counter that the state names: into one
whose value it has just read, which is behind the level and has room for it. -/
structure Turn.BurnsLevel (t : Turn) (state : Rollback.State) (value data : Bytes)
    (result : Except Error Unit) : Prop where
  request : t.request = .enforceRollback
  guarded : t.before.guard.state = state
  enabled : state.enabled = true
  field : t.before.board.fuses.field? (.rollbackCounter state.fuseIndex) = some value
  calls : t.calls =
    [.query (.rollbackCounter state.fuseIndex) (.ok value.length),
      .read (.rollbackCounter state.fuseIndex) value.length (.ok value),
      .query (.rollbackCounter state.fuseIndex) (.ok value.length),
      .write (.rollbackCounter state.fuseIndex) data result]
  behind : levelOf value < state.level
  fits : state.level.toNat ≤ 8 * value.length
  length : data.length = value.length
  /-- What is burned is the number with the lowest `level` bits set, and all of it. -/
  bits : ∀ i, (ofLE data).testBit i = decide (i < state.level.toNat)
  level_after : result = .ok () →
    ∃ value', t.after.board.fuses.field? (.rollbackCounter state.fuseIndex) = some value' ∧
      levelOf value ≤ levelOf value' ∧ state.level ≤ levelOf value'

/-- **Over a flow a single write is issued at most**, whatever is asked, whichever faults strike and
whatever the fuses are replaced with. It burns the level of the metadata, exactly, and no request
ever clears a fuse. -/
theorem writes_at_most_once (a : Authenticator) (requests : List Request) :
    ((a.turns requests).flatMap Turn.calls).countP (·.isWrite) ≤ 1 ∧
      (∀ t ∈ a.turns requests, (∃ e ∈ t.calls, e.isWrite = true) →
        ∃ value data result, t.BurnsLevel a.guard.state value data result) ∧
      ∀ t ∈ a.turns requests, (∀ fuses, t.request ≠ .replaceFuses fuses) →
        t.before.board.fuses.Grows t.after.board.fuses := by
  refine ⟨?_, ?_, ?_⟩
  · have hle := countP_writes_le a requests
    omega
  · rintro t ht ⟨e, he, hwrite⟩
    rcases t.burns with ⟨value, result, hrequest, -, hburns⟩ | hquiet
    · have hstate := (follows_turns ht).state_eq hburns.enabled
      refine ⟨value, burnData a.guard.state.level value.length, result, ?_⟩
      rw [← hstate]
      exact
        { request := hrequest
          guarded := rfl
          enabled := hburns.enabled
          field := hburns.field
          calls := hburns.calls
          behind := hburns.lt
          fits := hburns.fits
          length := Rollback.length_burnData ..
          bits := Rollback.testBit_ofLE_burnData hburns.length_le hburns.fits
          level_after := hburns.level_after }
    · rw [hquiet e he] at hwrite
      cases hwrite
  · intro t _ hreplace
    exact t.serves.grows hreplace

/-- A counter that is behind is burned once, however often the boot is enforced. -/
example :
    let part := fresh .t194 (.fresh { FuseBank.blank with counters := [[0x01, 0x00]] } [])
      { enabled := true, fuseIndex := 0, level := 9, floor := fun _ => 0 }
    ((part.turns [.enforceRollback, .clearKeyCache, .enforceRollback]).flatMap Turn.calls).filter
      Event.isWrite = [.write (.rollbackCounter 0) [0xff, 0x01] (.ok ())] := by
  decide

/-! ### Burns that are lost -/

namespace Turn

def Writes (t : Turn) : Prop := ∃ e ∈ t.calls, e.isWrite = true

instance (t : Turn) : Decidable t.Writes := inferInstanceAs (Decidable (∃ e ∈ t.calls, _))

/-- The turn sets out to move the counter. -/
def Commits (t : Turn) : Prop :=
  t.before.guard.burned = false ∧ t.after.guard.burned = true

/-- The turn sets out to move the counter and fails before it has asked for that, when it asks for the
size of the field. -/
def Loses (t : Turn) : Prop :=
  t.request = .enforceRollback ∧ t.before.guard.burned = false ∧
    ∃ value e, t.calls = Board.readings t.before.guard.counter value ++
      [.query t.before.guard.counter (.error e)]

/-- The boot goes on after the turn, which has read a counter that is behind the metadata and has room
for its level. -/
structure LeavesBehind (t : Turn) (value : Bytes) : Prop where
  request : t.request = .enforceRollback
  proceeds : t.answer = .enforceRollback (.ok .proceed)
  enabled : t.before.guard.state.enabled = true
  reads : .read t.before.guard.counter value.length (.ok value) ∈ t.calls
  behind : levelOf value < t.before.guard.state.level
  fits : t.before.guard.state.level.toNat ≤ 8 * value.length

variable {t : Turn}

theorem commits_of_writes (h : t.Writes) : t.Commits := by
  obtain ⟨e, he, hwrite⟩ := h
  rcases t.burns with ⟨value, result, -, hguard, hburns⟩ | hquiet
  · constructor
    · exact hburns.unburned
    · rw [hguard]
      rfl
  · rw [hquiet e he] at hwrite
    cases hwrite

theorem Loses.commits (h : t.Loses) : t.Commits := by
  obtain ⟨hrequest, hunburned, value, e, hcalls⟩ := h
  obtain ⟨result, -, henforces⟩ := enforces hrequest
  refine ⟨hunburned, ?_⟩
  rw [henforces.committed_of_lost (hcalls ▸ t.trace_after)]
  rfl

theorem Loses.not_writes (h : t.Loses) : ¬ t.Writes := by
  obtain ⟨-, -, value, e, hcalls⟩ := h
  rintro ⟨event, hevent, hwrite⟩
  rw [hcalls] at hevent
  simp only [Board.readings, List.cons_append, List.nil_append, List.mem_cons, List.not_mem_nil,
    or_false] at hevent
  rcases hevent with rfl | rfl | rfl <;> cases hwrite

/-- Only an enforcement sets out to move the counter. -/
theorem Commits.request (h : t.Commits) : t.request = .enforceRollback := by
  obtain ⟨hunburned, hburned⟩ := h
  have hkept : ∀ {r answer a'}, t.before.Serves r answer a' → a'.guard.burned = true →
      r = .enforceRollback := by
    intro r answer a' hserves hburned
    cases hserves with
    | enforced => rfl
    | bypassed hguard =>
      rw [hguard, Guard.disable, hunburned] at hburned
      cases hburned
    | replaced =>
      rw [Authenticator.replaceFuses, Authenticator.setBoard, hunburned] at hburned
      cases hburned
    | aside _ _ _ h =>
      rw [h.guard, hunburned] at hburned
      cases hburned
  exact hkept t.serves hburned

/-- How a turn sets out to move the counter. -/
theorem Commits.cases (h : t.Commits) :
    ∃ value, t.before.guard.Behind t.before.board value ∧
      (t.Loses ∨ 8 * value.length < t.before.guard.state.level.toNat ∨ t.Writes) := by
  obtain ⟨result, -, henforces⟩ := enforces h.request
  obtain ⟨value, hbehind, hlost | hrest⟩ := henforces.commits t.trace_after h.1 h.2
  · obtain ⟨e, hcalls⟩ := hlost
    exact ⟨value, hbehind, .inl ⟨h.request, h.1, value, e, hcalls⟩⟩
  · exact ⟨value, hbehind, .inr hrest⟩

end Turn

/-- A guard sets out to move its counter once in a flow at most. -/
theorem commits_unique {requests : List Request} {t u : Turn} (ht : t ∈ a.turns requests)
    (hu : u ∈ a.turns requests) (htc : t.Commits) (huc : u.Commits) : t = u := by
  have hsymm : Std.Symm fun t u : Turn => ¬ (t.Commits ∧ u.Commits) :=
    ⟨fun _ _ h h' => h h'.symm⟩
  have hnever : (a.turns requests).Pairwise fun t u => ¬ (t.Commits ∧ u.Commits) := by
    refine (pairwise_follows a requests).imp ?_
    rintro t u hfollows ⟨htc, huc⟩
    have hburned := hfollows.burned htc.2
    rw [huc.1] at hburned
    cases hburned
  by_contra hne
  exact hnever.forall ht hu hne ⟨htc, huc⟩

/-- If a guard has set out to burn before a turn of a flow that it has started without having done so,
an earlier turn tells. -/
theorem exists_commits {requests : List Request} {earlier later : List Turn} {t : Turn}
    (hstart : a.guard.burned = false) (hturns : a.turns requests = earlier ++ t :: later)
    (hburned : t.before.guard.burned = true) : ∃ u ∈ earlier, u.Commits := by
  let P (past : List Turn) (a : Authenticator) : Prop :=
    a.guard.burned = true → ∃ u ∈ past, u.Commits
  refine turns_induction (P := P) ?_ ?_ hturns hburned
  · intro hburned
    rw [hstart] at hburned
    cases hburned
  · intro past u hpast hburned
    cases hbefore : u.before.guard.burned with
    | true =>
      obtain ⟨v, hv, hcommits⟩ := hpast hbefore
      exact ⟨v, List.mem_append_left _ hv, hcommits⟩
    | false => exact ⟨u, List.mem_append_right _ List.mem_cons_self, hbefore, hburned⟩

/-- **A burn that is due is written or lost.** If the boot goes on after an enforcement that has found
the counter behind, a write has been issued by then in the flow, unless an earlier enforcement has
lost it. -/
theorem writes_iff_not_lost {requests : List Request} {earlier later : List Turn} {t : Turn}
    {value : Bytes} (hstart : a.guard.burned = false)
    (hreplace : ∀ fuses, .replaceFuses fuses ∉ requests)
    (hturns : a.turns requests = earlier ++ t :: later) (hbehind : t.LeavesBehind value) :
    (∃ u ∈ earlier ++ [t], u.Writes) ↔ ¬ ∃ u ∈ earlier, u.Loses := by
  constructor
  · rintro ⟨w, hw, hwrites⟩ ⟨u, hu, hloses⟩
    have hmem : ∀ {v}, v ∈ earlier ++ [t] → v ∈ a.turns requests := by
      intro v hv
      rw [hturns, List.append_cons]
      exact List.mem_append_left _ hv
    have hsame : w = u := commits_unique (hmem hw) (hmem (List.mem_append_left _ hu))
      (Turn.commits_of_writes hwrites) hloses.commits
    exact hloses.not_writes (hsame ▸ hwrites)
  · intro hnever
    obtain ⟨result, hanswer, henforces⟩ := Turn.enforces hbehind.request
    cases hanswer.symm.trans hbehind.proceeds
    rcases henforces.pending t.trace_after hbehind.enabled hbehind.reads hbehind.behind
      hbehind.fits with ⟨hburned, hreads⟩ | hwrites
    · obtain ⟨u, hu, hcommits⟩ := exists_commits hstart hturns hburned
      obtain ⟨old, hold, hloses | hunfit | hwrites⟩ := hcommits.cases
      · exact absurd ⟨u, hu, hloses⟩ hnever
      · -- A counter that had no room for the level then has none now.
        have hfollows := follows_of_earlier hturns hu
        obtain ⟨new, hnew, hraises⟩ := (grows_of_earlier hreplace hturns hu).counter hold.field
        have hfield := hreads.field
        rw [hfollows.counter_eq] at hfield
        cases hfield.symm.trans hnew
        have hfits := hbehind.fits
        rw [hfollows.level_eq, hraises.length] at hfits
        omega
      · exact ⟨u, List.mem_append_left _ hu, hwrites⟩
    · exact ⟨t, List.mem_append_right _ List.mem_cons_self, hwrites⟩

/-- Firmware of level 1 on a part with an untouched counter of one byte, whose size cannot be asked for
a second time. -/
def unsteady : Authenticator :=
  fresh .t194 (.fresh { FuseBank.blank with counters := [[0x00]] } [⟨.query, 1, .hardware⟩])
    { enabled := true, fuseIndex := 0, level := 1, floor := fun _ => 0 }

theorem turns_unsteady :
    unsteady.turns [.enforceRollback, .enforceRollback] =
      [⟨unsteady, .enforceRollback⟩, ⟨enforceRollback.final unsteady, .enforceRollback⟩] := by
  rfl

theorem leavesBehind_unsteady :
    Turn.LeavesBehind ⟨enforceRollback.final unsteady, .enforceRollback⟩ [0x00] := by
  constructor <;> decide

theorem writes_iff_not_lost_unsteady :
    unsteady.guard.burned = false ∧
      (∀ fuses, .replaceFuses fuses ∉ [Request.enforceRollback, .enforceRollback]) ∧
      Turn.LeavesBehind ⟨enforceRollback.final unsteady, .enforceRollback⟩ [0x00] ∧
      ((∃ u ∈ unsteady.turns [.enforceRollback, .enforceRollback], u.Writes) ↔
        ¬ ∃ u ∈ [(⟨unsteady, .enforceRollback⟩ : Turn)], u.Loses) := by
  have hreplace : ∀ fuses, .replaceFuses fuses ∉ [Request.enforceRollback, .enforceRollback] := by
    simp
  have hturns : unsteady.turns [.enforceRollback, .enforceRollback] =
      [⟨unsteady, .enforceRollback⟩] ++ [⟨enforceRollback.final unsteady, .enforceRollback⟩] :=
    turns_unsteady
  refine ⟨rfl, hreplace, leavesBehind_unsteady, ?_⟩
  rw [hturns]
  exact writes_iff_not_lost rfl hreplace hturns leavesBehind_unsteady

/-- A burn can be lost: the boot goes on, the counter is behind, and nothing has been written. -/
theorem burn_lost_without_write :
    Turn.LeavesBehind ⟨enforceRollback.final unsteady, .enforceRollback⟩ [0x00] ∧
      ∀ u ∈ unsteady.turns [.enforceRollback, .enforceRollback], ¬ u.Writes := by
  refine ⟨leavesBehind_unsteady, ?_⟩
  rw [turns_unsteady]
  decide

end Authenticator

end SecureBoot
