import SecureBoot.Proofs.Enforcement

/-!
Flows, turn by turn. A turn is a request together with the authenticator that it is put to.
`Authenticator.Serves` says what one turn can do to the guard and to the board: an enforcement has the
ways of `Rollback.Guard.Enforces` to end, a token that is accepted switches the guard off, and
everything else leaves the guard and the fuses alone.

What every turn keeps of the authenticator holds from any turn of a flow to any later one
(`Authenticator.turns_related`, `Authenticator.pairwise_turns`), also if it is about the turns before
(`Authenticator.turns_induction`). So the guard of a flow is the one that the flow has started with,
switched off at most (`Authenticator.follows_turns`), and the fuses have been burned at most, unless they
are replaced (`Authenticator.Serves.grows`).
-/

namespace SecureBoot

open Step

/-! ### Guards over a flow -/

namespace Rollback.Guard

/-- The guard has at most been switched off, and it knows if it has set out to burn. -/
structure Follows (g g' : Guard) : Prop where
  state : g'.state = g.state ∨ g'.state = g.disable.state
  burned : g.burned = true → g'.burned = true

namespace Follows

variable {g g' g'' : Guard}

theorem refl (g : Guard) : g.Follows g := ⟨.inl rfl, id⟩

theorem trans (h : g.Follows g') (h' : g'.Follows g'') : g.Follows g'' := by
  constructor
  · rcases h.state with hsame | hoff <;> rcases h'.state with hsame' | hoff'
    · exact .inl (hsame'.trans hsame)
    · exact .inr (by rw [hoff', disable, hsame]; rfl)
    · exact .inr (hsame'.trans hoff)
    · exact .inr (by rw [hoff', disable, hoff]; rfl)
  · intro hburned
    exact h'.burned (h.burned hburned)

/-- A guard that is on still has the state that it started with. -/
theorem state_eq (h : g.Follows g') (henabled : g'.state.enabled = true) : g'.state = g.state := by
  rcases h.state with hsame | hoff
  · exact hsame
  · rw [hoff] at henabled
    cases henabled

theorem counter_eq (h : g.Follows g') : g'.counter = g.counter := by
  rcases h.state with hsame | hoff
  · rw [counter, hsame]
    rfl
  · rw [counter, hoff]
    rfl

theorem level_eq (h : g.Follows g') : g'.state.level = g.state.level := by
  rcases h.state with hsame | hoff
  · rw [hsame]
  · rw [hoff]
    rfl

end Follows

theorem follows_disable (g : Guard) : g.Follows g.disable := ⟨.inr rfl, id⟩

theorem Enforces.follows {g g' : Guard} {b b' : Board} {r : Except Error Enforcement}
    (h : g.Enforces b r g' b') : g.Follows g' := by
  constructor
  · exact .inl h.state
  · intro hburned
    cases h with
    | lost | unfit | refused | burnt => rfl
    | disabled | unread | halted | kept => exact hburned

end Rollback.Guard

namespace Authenticator

variable {a a' : Authenticator}

/-! ### What one request does -/

/-- A token image is in order and meant for this part, if its signature is left aside. -/
def NamesPart (a : Authenticator) (image : Bytes) : Prop :=
  ∃ token uniqueId, parseToken image = .ok token ∧ a.board.fuses.uniqueId = some uniqueId ∧
    token.check a.chip.tokenVersion uniqueId = .ok ()

/-- A call that may be made for a token image: one that writes nothing, and one to the engine only if
the image is meant for this part. -/
def Tolerates (a : Authenticator) (image : Bytes) (e : Event) : Prop :=
  e.isWrite = false ∧ (e.isEngine = true → a.NamesPart image)

/-- **What a token does**: one that is accepted switches the guard off, and one that is refused
changes nothing about it. -/
theorem ensures_bypassRollback_extends (a : Authenticator) (image : Bytes) :
    Ensures (bypassRollback image) a
      (fun _ a' => ∃ a₁, a.Extends (a.Tolerates image) a₁ ∧
        a' = { a₁ with guard := a₁.guard.disable })
      (fun _ a' => a.Extends (a.Tolerates image) a') := by
  have hlooks : ∀ {a'}, a.Extends (fun e => e.isLook) a' → a.Extends (a.Tolerates image) a' := by
    intro a' h
    apply h.mono
    intro e he
    refine ⟨Event.not_isWrite_of_isLook he, ?_⟩
    intro hengine
    rw [Event.not_isEngine_of_isLook he] at hengine
    cases hengine
  simp only [bypassRollback, ensures_bind, ensures_get, ensures_modify]
  cases hparse : parseToken image with
  | error e => exact .refl a
  | ok token =>
    simp only [ensures_ofExcept_ok, onBoard, ensures_focus, Board.readUniqueId_eq]
    apply (Board.ensures_readSized _ _ a.board).mono
    · rintro uniqueId b ⟨hid, -, rfl⟩
      have hread : a.Extends (a.Tolerates image)
          (a.setBoard (a.board.recordAll (Board.readings .uniqueId uniqueId))) :=
        hlooks ⟨rfl, rfl, Board.extends_recordAll Board.isLook_of_mem_readings a.board⟩
      cases hcheck : token.check a.chip.tokenVersion uniqueId with
      | error e => exact hread
      | ok =>
        rw [ensures_ofExcept_ok]
        have hsession : ∀ {a₁ a₂ : Authenticator}, a₁.Extends (fun e => e.isWrite = false) a₂ →
            a₁.Extends (a.Tolerates image) a₂ := fun h =>
          h.mono fun e he => ⟨he, fun _ => ⟨token, uniqueId, hparse, hid, hcheck⟩⟩
        apply (extends_withSession ?_ _ _ _).mono
        · intro _ a₁ h
          exact ⟨a₁, hread.trans (hsession h), rfl⟩
        · intro _ a₁ h
          exact hread.trans (hsession h)
        · exact (Session.asks_push _ _).bind fun _ => Session.asks_finalize.bind fun _ => moves_pure ()
    · rintro e b ⟨u, hfailed, rfl, -⟩
      exact hlooks ⟨rfl, rfl, Board.extends_recordAll hfailed.isLook a.board⟩

theorem extends_bypassRollback (a : Authenticator) (image : Bytes) :
    a.board.Extends (a.Tolerates image) ((bypassRollback image).final a).board := by
  apply Ensures.final (p := fun a' : Authenticator => a.board.Extends (a.Tolerates image) a'.board)
  apply (ensures_bypassRollback_extends a image).mono
  · rintro _ _ ⟨a₁, h, rfl⟩
    exact h.board
  · intro _ _ h
    exact h.board

/-- What a request does to the guard and to the board, with the answer to it. -/
inductive Serves (a : Authenticator) : Request → Answer → Authenticator → Prop where
  | enforced {result : Except Error Rollback.Enforcement} {a' : Authenticator}
      (h : a.guard.Enforces a.board result a'.guard a'.board) :
      Serves a .enforceRollback (.enforceRollback result) a'
  | bypassed {image : Bytes} {a' : Authenticator} (hguard : a'.guard = a.guard.disable)
      (hboard : a.board.Extends (fun e => e.isWrite = false) a'.board) :
      Serves a (.bypassRollback image) (.bypassRollback (.ok ())) a'
  | replaced (fuses : FuseBank) :
      Serves a (.replaceFuses fuses) .replaceFuses (a.replaceFuses fuses)
  /-- The guard and the fuses are left alone. -/
  | aside {r : Request} {answer : Answer} {a' : Authenticator} (henforce : r ≠ .enforceRollback)
      (hreplace : ∀ fuses, r ≠ .replaceFuses fuses) (hbypass : answer ≠ .bypassRollback (.ok ()))
      (h : a.Extends (fun e => e.isWrite = false) a') : Serves a r answer a'

theorem serves (a : Authenticator) (r : Request) : a.Serves r (a.answer r).1 (a.answer r).2 := by
  cases r with
  | checkRollback type level => exact .aside nofun nofun nofun (.refl a)
  | enforceRollback => exact .enforced a.enforces
  | clearKeyCache => exact .aside nofun nofun nofun ⟨rfl, rfl, .refl a.board⟩
  | replaceFuses fuses => exact .replaced fuses
  | hardwareLevel =>
    have hlook : Moves (Extends fun e => e.isLook) id hardwareLevel :=
      moves_get.bind fun _ => extends_onBoard ((Board.asks_readWord _).map _)
    exact .aside nofun nofun nofun ((hlook.final a).mono fun _ => Event.not_isWrite_of_isLook)
  | session type dest requests =>
    exact .aside nofun nofun nofun ((extends_visit type dest requests).final a)
  | bypassRollback image =>
    apply Ensures.result (p := fun result a' =>
      a.Serves (.bypassRollback image) (.bypassRollback result) a')
    apply (ensures_bypassRollback_extends a image).mono
    · rintro _ _ ⟨a₁, h, rfl⟩
      exact .bypassed (congrArg Rollback.Guard.disable h.guard) (h.board.mono fun _ he => he.1)
    · intro e a' h
      exact .aside nofun nofun nofun (h.mono fun _ he => he.1)

namespace Serves

variable {r : Request} {answer : Answer}

theorem follows (h : a.Serves r answer a') : a.guard.Follows a'.guard := by
  cases h with
  | enforced h => exact h.follows
  | bypassed hguard =>
    rw [hguard]
    exact a.guard.follows_disable
  | replaced => exact .refl a.guard
  | aside _ _ _ h =>
    rw [h.guard]
    exact .refl a.guard

/-- Fuses that are not replaced have been burned at most. -/
theorem grows (h : a.Serves r answer a') (hreplace : ∀ fuses, r ≠ .replaceFuses fuses) :
    a.board.fuses.Grows a'.board.fuses := by
  cases h with
  | enforced h => exact h.grows
  | bypassed _ h =>
    rw [h.fuses]
    exact .refl _
  | replaced fuses => exact absurd rfl (hreplace fuses)
  | aside _ _ _ h =>
    rw [h.board.fuses]
    exact .refl _

/-- Nothing is ever struck off the record. -/
theorem trace (h : a.Serves r answer a') : ∃ u, a'.board.trace = a.board.trace ++ u := by
  cases h with
  | enforced h => exact h.trace
  | bypassed _ h =>
    obtain ⟨u, hu, -⟩ := h.calls
    exact ⟨u, hu⟩
  | aside _ _ _ h =>
    obtain ⟨u, hu, -⟩ := h.board.calls
    exact ⟨u, hu⟩
  | replaced => exact ⟨[], (List.append_nil _).symm⟩

end Serves

/-! ### Turns -/

/-- A request, with the authenticator that it is put to. -/
structure Turn where
  before : Authenticator
  request : Request

namespace Turn

def answer (t : Turn) : Answer := (t.before.answer t.request).1

def after (t : Turn) : Authenticator := (t.before.answer t.request).2

/-- The calls that are made for the request. -/
def calls (t : Turn) : Trace := t.after.board.trace.drop t.before.board.trace.length

theorem serves (t : Turn) : t.before.Serves t.request t.answer t.after :=
  t.before.serves t.request

theorem enforces {t : Turn} (h : t.request = .enforceRollback) :
    ∃ result, t.answer = .enforceRollback result ∧
      t.before.guard.Enforces t.before.board result t.after.guard t.after.board := by
  obtain ⟨a, r⟩ := t
  cases h
  exact ⟨_, rfl, a.enforces⟩

theorem calls_eq {t : Turn} {u : Trace} (h : t.after.board.trace = t.before.board.trace ++ u) :
    t.calls = u := by
  rw [calls, h, List.drop_left]

theorem trace_after (t : Turn) : t.after.board.trace = t.before.board.trace ++ t.calls := by
  obtain ⟨u, hu⟩ := t.serves.trace
  rw [calls_eq hu, hu]

end Turn

/-- The turns of a flow. -/
def turns (a : Authenticator) : List Request → List Turn
  | [] => []
  | r :: rest => ⟨a, r⟩ :: if (a.answer r).1.halts then [] else turns (a.answer r).2 rest

theorem flow_eq_map_turns (a : Authenticator) (requests : List Request) :
    a.flow requests = (a.turns requests).map fun t => (t.answer, t.after) := by
  induction requests generalizing a with
  | nil => rfl
  | cons r rest ih =>
    simp only [flow, turns, List.map_cons, ih]
    split <;> rfl

theorem request_mem_of_mem_turns {requests : List Request} {t : Turn}
    (ht : t ∈ a.turns requests) : t.request ∈ requests := by
  induction requests generalizing a with
  | nil => cases ht
  | cons r rest ih =>
    rcases List.mem_cons.mp ht with rfl | hrest
    · exact List.mem_cons_self
    · split at hrest
      · cases hrest
      · exact List.mem_cons_of_mem r (ih hrest)

section Kept

variable {R : Authenticator → Authenticator → Prop} {requests : List Request}

/-- What every request of a flow keeps is kept from the start up to each turn. -/
theorem turns_related (hrefl : ∀ a, R a a) (htrans : ∀ {a b c}, R a b → R b c → R a c)
    (hstep : ∀ a, ∀ r ∈ requests, R a (Authenticator.answer a r).2) {t : Turn}
    (ht : t ∈ a.turns requests) : R a t.before := by
  induction requests generalizing a with
  | nil => cases ht
  | cons r rest ih =>
    rcases List.mem_cons.mp ht with rfl | hrest
    · exact hrefl _
    · split at hrest
      · cases hrest
      · have hnext := ih (fun a r hr => hstep a r (List.mem_cons_of_mem _ hr)) hrest
        exact htrans (hstep a r List.mem_cons_self) hnext

/-- And it is kept from each turn up to every later one. -/
theorem pairwise_turns (hrefl : ∀ a, R a a) (htrans : ∀ {a b c}, R a b → R b c → R a c)
    (hstep : ∀ a, ∀ r ∈ requests, R a (Authenticator.answer a r).2) :
    (a.turns requests).Pairwise fun t u => R t.after u.before := by
  induction requests generalizing a with
  | nil => exact .nil
  | cons r rest ih =>
    have hrest := fun a r hr => hstep a r (List.mem_cons_of_mem _ hr)
    simp only [turns]
    split
    · exact List.pairwise_singleton ..
    · constructor
      · intro u hu
        exact turns_related hrefl htrans hrest hu
      · exact ih hrest

end Kept

/-- What relates an authenticator to the turns behind it holds at each turn of a flow, if it holds at the
start and every turn keeps it. -/
theorem turns_induction {P : List Turn → Authenticator → Prop} {requests : List Request}
    {earlier later : List Turn} {t : Turn} (hstart : P [] a)
    (hstep : ∀ past (u : Turn), P past u.before → P (past ++ [u]) u.after)
    (hturns : a.turns requests = earlier ++ t :: later) : P earlier t.before := by
  suffices hall : ∀ past, P past a → P (past ++ earlier) t.before from hall [] hstart
  clear hstart
  induction requests generalizing a earlier with
  | nil => cases earlier <;> cases hturns
  | cons r rest ih =>
    intro past hpast
    cases earlier with
    | nil =>
      obtain ⟨rfl, -⟩ := List.cons.inj hturns
      rwa [List.append_nil]
    | cons u earlier =>
      obtain ⟨rfl, hrest⟩ := List.cons.inj hturns
      split at hrest
      · cases earlier <;> cases hrest
      · have hnext := ih hrest _ (hstep past ⟨a, r⟩ hpast)
        rwa [List.append_assoc] at hnext

/-- The guard of a flow is the one that it has started with, switched off at most. -/
theorem follows_turns {requests : List Request} {t : Turn} (ht : t ∈ a.turns requests) :
    a.guard.Follows t.before.guard :=
  turns_related (R := fun a a' => a.guard.Follows a'.guard) (fun a => .refl a.guard)
    (fun h h' => h.trans h') (fun a r _ => (a.serves r).follows) ht

theorem pairwise_follows (a : Authenticator) (requests : List Request) :
    (a.turns requests).Pairwise fun t u => t.after.guard.Follows u.before.guard :=
  pairwise_turns (R := fun a a' => a.guard.Follows a'.guard) (fun a => .refl a.guard)
    (fun h h' => h.trans h') fun a r _ => (a.serves r).follows

/-- If the fuses are never replaced, they have been burned at most from one turn to a later one. -/
theorem pairwise_grows (a : Authenticator) {requests : List Request}
    (hreplace : ∀ fuses, .replaceFuses fuses ∉ requests) :
    (a.turns requests).Pairwise fun t u => t.after.board.fuses.Grows u.before.board.fuses := by
  have hstep : ∀ a : Authenticator, ∀ r ∈ requests,
      a.board.fuses.Grows (a.answer r).2.board.fuses := by
    intro a r hr
    apply (a.serves r).grows
    intro fuses hfuses
    rw [hfuses] at hr
    exact hreplace fuses hr
  exact pairwise_turns (R := fun a a' => a.board.fuses.Grows a'.board.fuses)
    (fun a => .refl a.board.fuses) (fun h h' => h.trans h') hstep

/-- From an earlier turn to a later one the guard has been switched off at most. -/
theorem follows_of_earlier {requests : List Request} {earlier later : List Turn} {t u : Turn}
    (hturns : a.turns requests = earlier ++ t :: later) (hu : u ∈ earlier) :
    u.before.guard.Follows t.before.guard := by
  have hpairwise := pairwise_follows a requests
  rw [hturns, List.pairwise_append] at hpairwise
  exact u.serves.follows.trans (hpairwise.2.2 u hu t List.mem_cons_self)

/-- And the fuses have been burned at most, if they are not replaced. -/
theorem grows_of_earlier {requests : List Request} {earlier later : List Turn} {t u : Turn}
    (hreplace : ∀ fuses, .replaceFuses fuses ∉ requests)
    (hturns : a.turns requests = earlier ++ t :: later) (hu : u ∈ earlier) :
    u.before.board.fuses.Grows t.before.board.fuses := by
  have hrequest : ∀ fuses, u.request ≠ .replaceFuses fuses := by
    intro fuses hfuses
    have hmem : u ∈ a.turns requests := hturns ▸ List.mem_append_left _ hu
    have hrequests := request_mem_of_mem_turns hmem
    rw [hfuses] at hrequests
    exact hreplace fuses hrequests
  have hpairwise := pairwise_grows a hreplace
  rw [hturns, List.pairwise_append] at hpairwise
  exact (u.serves.grows hrequest).trans (hpairwise.2.2 u hu t List.mem_cons_self)

end Authenticator

end SecureBoot
