import SecureBoot.Proofs.Checked
import SecureBoot.Proofs.Enforcement

/-!
The guard against rollback on any fuses. `FuseService` is all that the guard knows of a fuse controller,
which may answer whatever it likes and be of any state. On such fuses the guard is written out once more
with every slice and product looked at (`Rollback.Guard.checkedEnforce`). What it burns is cut off at
the size that the controller gives for the counter, and that size is asked for twice, so it is in range
as long as both answers are the same (`Rollback.Guard.agrees_checkedEnforce`).
-/

namespace SecureBoot

open Step Checked

/-- A fuse controller over the state `σ`. -/
structure FuseService (σ : Type) where
  query : FuseField → Step σ Nat
  read : FuseField → Nat → Step σ Bytes
  write : FuseField → Bytes → Step σ Unit

/-- The fuses of a board. -/
def Board.service : FuseService Board := ⟨query, read, write⟩

namespace FuseService

variable {σ : Type} (fuses : FuseService σ)

/-- The controller gives a field the same size once it has been read as before that. -/
def Steady (field : FuseField) (s : σ) : Prop :=
  ∀ size value size',
    (fuses.query field).outcome s = .ok size →
    (fuses.read field size).outcome ((fuses.query field).final s) = .ok value →
    (fuses.query field).outcome ((fuses.read field size).final ((fuses.query field).final s)) =
      .ok size' →
    size' = size

/-- Reads a field of one to four bytes as a number. -/
def readWord (field : FuseField) : Step σ UInt32 := do
  let size ← fuses.query field
  Step.require (1 ≤ size ∧ size ≤ 4) .invalid
  let value ← fuses.read field size
  return UInt32.ofNat (ofLE value)

/-- The same, into the front of a word. -/
def checkedReadWord (field : FuseField) : Checked σ UInt32 := do
  let size ← lift (fuses.query field)
  lift (Step.require (1 ≤ size ∧ size ≤ 4) .invalid)
  inRange (wordBytes 0) 0 size
  let value ← lift (fuses.read field size)
  return UInt32.ofNat (ofLE value)

variable {fuses} {field : FuseField} {s : σ}

theorem agrees_checkedReadWord (field : FuseField) (s : σ) :
    Agrees (fuses.checkedReadWord field) s (fuses.readWord field) s := by
  refine (agrees_lift _ s).bind (ensures_exec _ s) fun size t _ => agrees_require fun hsize => ?_
  have hroom : size ≤ (wordBytes 0).length := by
    rw [length_wordBytes]
    exact hsize.2
  rw [inRange_of (Nat.zero_le _) hroom, pure_bind]
  exact (agrees_lift _ t).bind (ensures_exec _ t) fun value t' _ => agrees_pure.mpr ⟨rfl, rfl⟩

/-- After a reading, a steady controller gives the field a size that fits a word. -/
theorem Steady.ensures_readWord (h : fuses.Steady field s) :
    Ensures (fuses.readWord field) s
      (fun _ t => ∀ size, (fuses.query field).outcome t = .ok size → size ≤ 4)
      (fun _ _ => True) := by
  simp only [readWord, ensures_bind, ensures_require, ensures_pure]
  refine (ensures_exec _ s).mono ?_ fun _ _ _ => trivial
  rintro size t ⟨hquery, rfl⟩
  refine ⟨fun hsize => ?_, fun _ => trivial⟩
  refine (ensures_exec _ _).mono ?_ fun _ _ _ => trivial
  rintro value t' ⟨hread, rfl⟩ size' hquery'
  rw [h size value size' hquery hread hquery']
  exact hsize.2

end FuseService

/-- Nothing but a burn changes a fuse, so that the fuses of a board are steady. -/
theorem Board.steady_service (field : FuseField) (b : Board) : service.Steady field b := by
  have hsize : ∀ {b : Board} {n : Nat}, (Board.query field).outcome b = .ok n →
      b.fuses.size field = .ok n := fun hquery => ((ensures_perform _ _ _ _).outcome_ok hquery).1
  intro size value size' hquery _ hquery'
  have hqueried : b.Extends (fun e => e.isLook) ((Board.query field).final b) :=
    (Board.asks_query field b).final
  have hread : ((Board.query field).final b).Extends (fun e => e.isLook)
      ((Board.read field size).final ((Board.query field).final b)) :=
    (Board.asks_read field size _).final
  have hagain : ((Board.read field size).final ((Board.query field).final b)).fuses.size field =
      .ok size' := hsize hquery'
  rw [hread.fuses, hqueried.fuses, hsize hquery] at hagain
  exact (Except.ok.inj hagain).symm

/-- The first bytes of a number are those of the number cut off. -/
theorem take_toLE {size width : Nat} (h : size ≤ width) (n : Nat) :
    (toLE width n).take size = toLE size n := by
  induction size generalizing width n with
  | zero => rfl
  | succ size ih =>
    obtain ⟨width, rfl⟩ := Nat.exists_eq_add_of_lt h
    rw [toLE, toLE, List.take_succ_cons, ih (Nat.le_add_right ..)]

namespace Rollback.Guard

variable {σ α : Type} (fuses : FuseService σ)

/-! ### The guard on any fuses -/

def levelOn (g : Guard) : Step σ UInt8 := levelOfFuse <$> fuses.readWord g.counter

def burnOn (g : Guard) : Step σ Unit := do
  let size ← fuses.query g.counter
  if g.state.level.toNat ≤ 8 * size then
    Step.ignoring (fuses.write g.counter (burnData g.state.level size))

/-- A step on the fuses that the guard watches. -/
def onFuses (m : Step σ α) : Step (Guard × σ) α := Step.focus Prod.snd (fun t s => (s.1, t)) m

def enforceOn : Step (Guard × σ) Enforcement := do
  let s ← get
  if s.1.state.enabled then
    let hardware ← onFuses (s.1.levelOn fuses)
    if s.1.state.level < hardware then
      return .halt
    else if hardware < s.1.state.level ∧ ¬ s.1.burned then
      modify fun s => ({ s.1 with burned := true }, s.2)
      onFuses (s.1.burnOn fuses)
      return .proceed
    else
      return .proceed
  else
    return .proceed

/-- On the fuses of a board this is the guard. -/
theorem enforceOn_service : enforceOn Board.service = enforce := rfl

/-! ### With every bound checked -/

def checkedLevel (g : Guard) : Checked σ UInt8 := levelOfFuse <$> fuses.checkedReadWord g.counter

/-- The value to burn is a word, and the front of it is burned. -/
def checkedBurn (g : Guard) : Checked σ Unit := do
  let size ← lift (fuses.query g.counter)
  bound (8 * size < wordLimit)
  if g.state.level.toNat ≤ 8 * size then
    let value := wordBytes (fuseOfLevel g.state.level)
    inRange value 0 size
    lift (Step.ignoring (fuses.write g.counter (value.take size)))

def checkedOnFuses (m : Checked σ α) : Checked (Guard × σ) α :=
  Checked.focus Prod.snd (fun t s => (s.1, t)) m

def checkedEnforce : Checked (Guard × σ) Enforcement := do
  let s ← get
  if s.1.state.enabled then
    let hardware ← checkedOnFuses (s.1.checkedLevel fuses)
    if s.1.state.level < hardware then
      return .halt
    else if hardware < s.1.state.level ∧ ¬ s.1.burned then
      modify fun s => ({ s.1 with burned := true }, s.2)
      checkedOnFuses (s.1.checkedBurn fuses)
      return .proceed
    else
      return .proceed
  else
    return .proceed

variable {fuses} {s : σ}

theorem agrees_checkedBurn {g : Guard}
    (hfit : ∀ size, (fuses.query g.counter).outcome s = .ok size → size ≤ 4) :
    Agrees (g.checkedBurn fuses) s (g.burnOn fuses) s := by
  refine (agrees_lift _ s).bind (ensures_exec _ s) fun size t hquery => ?_
  have hsize : size ≤ 4 := hfit size hquery.1
  have hword : 8 * size < wordLimit := by
    simp only [wordLimit]
    omega
  have hroom : size ≤ (wordBytes (fuseOfLevel g.state.level)).length := by
    rw [length_wordBytes]
    exact hsize
  have hfront : (wordBytes (fuseOfLevel g.state.level)).take size = burnData g.state.level size :=
    take_toLE hsize _
  rw [bound_of hword, pure_bind]
  split
  · simp only [inRange_of (Nat.zero_le _) hroom, pure_bind, hfront]
    exact agrees_lift _ t
  · exact agrees_pure.mpr ⟨rfl, rfl⟩

/-- **No slice is out of range** on fuses that give the counter the same size throughout. -/
theorem agrees_checkedEnforce {g : Guard} (h : fuses.Steady g.counter s) :
    Agrees (checkedEnforce fuses) (g, s) (enforceOn fuses) (g, s) := by
  unfold checkedEnforce enforceOn
  rw [agrees_get_left, agrees_get_right]
  by_cases henabled : g.state.enabled = true
  · simp only [if_pos henabled]
    have hlevel : Agrees (checkedOnFuses (g.checkedLevel fuses)) (g, s)
        (onFuses (g.levelOn fuses)) (g, s) :=
      (FuseService.agrees_checkedReadWord g.counter s).map.focus
    have hsteady : Ensures (onFuses (g.levelOn fuses)) (g, s)
        (fun _ t => t.1 = g ∧
          ∀ size, (fuses.query g.counter).outcome t.2 = .ok size → size ≤ 4)
        (fun _ _ => True) := by
      simp only [onFuses, levelOn, ensures_focus, ensures_map]
      exact h.ensures_readWord.mono (fun _ _ hsize => ⟨trivial, hsize⟩) fun _ _ _ => trivial
    refine hlevel.bind hsteady ?_
    rintro hardware ⟨g', t⟩ ⟨rfl, hfit⟩
    split
    · exact agrees_pure.mpr ⟨rfl, rfl⟩
    · split
      · have hinside : Agrees (g'.checkedBurn fuses) t (g'.burnOn fuses) t := agrees_checkedBurn hfit
        have hburn : Agrees (checkedOnFuses (g'.checkedBurn fuses)) (g'.committed, t)
            (onFuses (g'.burnOn fuses)) (g'.committed, t) := hinside.focus
        exact hburn.bind (ensures_exec _ _) fun _ _ _ => agrees_pure.mpr ⟨rfl, rfl⟩
      · exact agrees_pure.mpr ⟨rfl, rfl⟩
  · simp only [if_neg henabled]
    exact agrees_pure.mpr ⟨rfl, rfl⟩

end Rollback.Guard

end SecureBoot
