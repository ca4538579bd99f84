import SecureBoot.Proofs.Tiling

/-!
Windows in machine words. A cursor is a word, and so is what is added to it, so that a sum may wrap
round. `WordWindow` is the window with such cursors, which finds out about that from the sum itself. It
answers as the window does that it stands for (`WordWindow.answer_eq`), where sums are sums of numbers.
So what is known of windows over any run of requests holds whatever words are asked for
(`Window.cursors_keep_order`).
-/

namespace SecureBoot

/-- A window whose cursors are machine words. -/
structure WordWindow where
  capacity : UInt64
  filled : UInt64
  safe : UInt64
deriving DecidableEq, Repr

namespace WordWindow

open Window (Request Answer)

/-- The sum of two words, if it is one. A sum that has wrapped round is less than what it began
with. -/
def sum? (a b : UInt64) : Option UInt64 := if a + b < a then none else some (a + b)

def ofCapacity (capacity : UInt64) : Except Error WordWindow :=
  if capacity = 0 then .error .invalid else .ok ⟨capacity, 0, 0⟩

def fill (n : UInt64) : Step WordWindow (UInt64 × UInt64) := do
  let w ← get
  match sum? w.filled n with
  | none => throw .overflow
  | some stop =>
    Step.require (stop ≤ w.capacity) .overflow
    set { w with filled := stop }
    return (w.filled, stop)

def commit (position : UInt64) : Step WordWindow Unit := do
  let w ← get
  Step.require (¬ (position < w.safe ∨ w.filled < position)) .invalid
  set { w with safe := position }

/-- What a window answers to a request, and what becomes of it. -/
def answer (w : WordWindow) : Request UInt64 → Answer × WordWindow
  | .fill n => Prod.map (fun r => .fill (r.map fun x => ⟨x.1.toNat, x.2.toNat⟩)) id ((fill n).exec w)
  | .commit position => Prod.map .commit id ((commit position).exec w)

/-- The window after some requests. -/
def after (w : WordWindow) (requests : List (Request UInt64)) : WordWindow :=
  requests.foldl (fun w r => (w.answer r).2) w

/-- The window that the words stand for. -/
def toWindow (w : WordWindow) : Window := ⟨w.capacity.toNat, w.filled.toNat, w.safe.toNat⟩

/-! ### The same answers -/

section Sum

variable {a b : UInt64}

theorem toNat_add_of_lt (h : a.toNat + b.toNat < UInt64.size) : (a + b).toNat = a.toNat + b.toNat := by
  rw [UInt64.toNat_add]
  exact Nat.mod_eq_of_lt h

theorem sum?_of_lt (h : a.toNat + b.toNat < UInt64.size) : sum? a b = some (a + b) := by
  have hsum : ¬ a + b < a := by
    rw [UInt64.lt_iff_toNat_lt, toNat_add_of_lt h]
    omega
  exact if_neg hsum

theorem sum?_of_size_le (h : UInt64.size ≤ a.toNat + b.toNat) : sum? a b = none := by
  have hsum : a + b < a := by
    have ha : a.toNat < UInt64.size := a.toNat_lt_size
    have hb : b.toNat < UInt64.size := b.toNat_lt_size
    rw [UInt64.lt_iff_toNat_lt, UInt64.toNat_add]
    change (a.toNat + b.toNat) % UInt64.size < a.toNat
    rw [Nat.mod_eq_sub_mod h, Nat.mod_eq_of_lt (by omega)]
    omega
  exact if_pos hsum

end Sum

theorem exec_fill (n : UInt64) (w : WordWindow) :
    (fill n).exec w =
      if w.filled.toNat + n.toNat ≤ w.capacity.toNat then
        (.ok (w.filled, w.filled + n), { w with filled := w.filled + n })
      else (.error .overflow, w) := by
  unfold Step.exec
  simp only [fill, EStateM.run_bind, EStateM.run_get]
  by_cases hsum : w.filled.toNat + n.toNat < UInt64.size
  · rw [sum?_of_lt hsum]
    simp only [EStateM.run_bind, Step.run_require, UInt64.le_iff_toNat_le, toNat_add_of_lt hsum]
    by_cases hspace : w.filled.toNat + n.toNat ≤ w.capacity.toNat
    · rw [if_pos hspace, if_pos hspace]
      rfl
    · rw [if_neg hspace, if_neg hspace]
  · -- A capacity is a word as well, so nothing that has wrapped round would have fitted.
    have hspace : ¬ w.filled.toNat + n.toNat ≤ w.capacity.toNat := by
      have : w.capacity.toNat < UInt64.size := w.capacity.toNat_lt_size
      omega
    rw [sum?_of_size_le (Nat.le_of_not_lt hsum), if_neg hspace]
    rfl

theorem exec_commit (position : UInt64) (w : WordWindow) :
    (commit position).exec w =
      if w.safe.toNat ≤ position.toNat ∧ position.toNat ≤ w.filled.toNat then
        (.ok (), { w with safe := position })
      else (.error .invalid, w) := by
  unfold Step.exec
  simp only [commit, EStateM.run_bind, EStateM.run_get, Step.run_require, UInt64.lt_iff_toNat_lt,
    not_or, Nat.not_lt]
  by_cases h : w.safe.toNat ≤ position.toNat ∧ position.toNat ≤ w.filled.toNat
  · rw [if_pos h, if_pos h]
    rfl
  · rw [if_neg h, if_neg h]

/-- A window of words answers as the window that it stands for, and stands for what becomes of that
one. -/
theorem answer_eq (w : WordWindow) (r : Request UInt64) :
    Prod.map id toWindow (w.answer r) = w.toWindow.answer (r.map UInt64.toNat) := by
  cases r with
  | fill n =>
    simp only [answer, exec_fill, Request.map, Window.answer, Window.exec_fill, toWindow]
    by_cases h : w.filled.toNat + n.toNat ≤ w.capacity.toNat
    · have hsum : (w.filled + n).toNat = w.filled.toNat + n.toNat :=
        toNat_add_of_lt (Nat.lt_of_le_of_lt h w.capacity.toNat_lt_size)
      rw [if_pos h, if_pos h]
      simp only [Prod.map, id, Except.map, toWindow, hsum]
    · rw [if_neg h, if_neg h]
      rfl
  | commit position =>
    simp only [answer, exec_commit, Request.map, Window.answer, Window.exec_commit, toWindow]
    by_cases h : w.safe.toNat ≤ position.toNat ∧ position.toNat ≤ w.filled.toNat
    · rw [if_pos h, if_pos h]
      rfl
    · rw [if_neg h, if_neg h]
      rfl

theorem toWindow_after (w : WordWindow) (asked : List (Request UInt64)) :
    (w.after asked).toWindow = w.toWindow.after (asked.map (Request.map UInt64.toNat)) := by
  induction asked generalizing w with
  | nil => rfl
  | cons r rest ih =>
    have hnext : (w.answer r).2.toWindow = (w.toWindow.answer (r.map UInt64.toNat)).2 :=
      congrArg Prod.snd (w.answer_eq r)
    change ((w.answer r).2.after rest).toWindow =
      (w.toWindow.answer (r.map UInt64.toNat)).2.after (rest.map (Request.map UInt64.toNat))
    rw [ih, hnext]

end WordWindow

namespace Window

/-- **The cursors of a window keep their order, and what it takes up tiles it.** A window over
something can be asked whatever one likes, with any machine words for arguments. The cursors never
leave their order and never move back. As much is taken up as fits the capacity, as a sum of numbers
and not of words, and `safe` moves to any position from where it stands up to `filled`; anything else
is refused and leaves the window as it is. The extents taken up follow one upon the other from the
start up to `filled`, so that each position before `filled` lies in exactly one of them. And a window
that keeps its cursors in machine words stands where this one does and answers as this one does. -/
theorem cursors_keep_order (capacity : UInt64) (hcapacity : 0 < capacity) :
    ∃ start words, ofCapacity capacity.toNat = .ok start ∧
      WordWindow.ofCapacity capacity = .ok words ∧
      ∀ asked : List (Request UInt64),
        let requests := asked.map (Request.map UInt64.toNat)
        let w := start.after requests
        let taken := start.extents requests
        (w.capacity = capacity.toNat ∧ w.safe ≤ w.filled ∧ w.filled ≤ w.capacity) ∧
        (∀ later, w.safe ≤ (w.after later).safe ∧ w.filled ≤ (w.after later).filled) ∧
        (∀ n, (fill n).exec w =
          if w.filled + n ≤ capacity.toNat then
            (.ok ⟨w.filled, w.filled + n⟩, { w with filled := w.filled + n })
          else (.error .overflow, w)) ∧
        (∀ position, (commit position).exec w =
          if w.safe ≤ position ∧ position ≤ w.filled then (.ok (), { w with safe := position })
          else (.error .invalid, w)) ∧
        (Extent.Tile 0 taken w.filled ∧ taken.flatMap Extent.positions = List.range w.filled) ∧
        (words.after asked).toWindow = w ∧
        ∀ r, ((words.after asked).answer r).1 = (w.answer (r.map UInt64.toNat)).1 := by
  have hnumber : capacity.toNat ≠ 0 := Nat.ne_of_gt (UInt64.lt_iff_toNat_lt.mp hcapacity)
  have hword : capacity ≠ 0 := fun hzero => hnumber (congrArg UInt64.toNat hzero)
  refine ⟨⟨capacity.toNat, 0, 0⟩, ⟨capacity, 0, 0⟩, if_neg hnumber, if_neg hword, fun asked => ?_⟩
  intro requests w taken
  have hadvances : Advances ⟨capacity.toNat, 0, 0⟩ w := advances_after _ requests
  have horder : w.InOrder := hadvances.inOrder ⟨Nat.le_refl 0, Nat.zero_le _⟩
  have htile : Extent.Tile 0 taken w.filled := tile_extents ⟨capacity.toNat, 0, 0⟩ requests
  have hwords : ((⟨capacity, 0, 0⟩ : WordWindow).after asked).toWindow = w :=
    WordWindow.toWindow_after _ asked
  refine ⟨⟨hadvances.capacity_eq, horder.safe_le, horder.filled_le⟩, fun later => ?_, fun n => ?_,
    fun position => exec_commit position w, ⟨htile, ?_⟩, hwords, fun r => ?_⟩
  · have hlater := w.advances_after later
    exact ⟨hlater.safe_le, hlater.filled_le⟩
  · rw [exec_fill, hadvances.capacity_eq]
  · rw [htile.flatMap_positions, Nat.sub_zero, List.range_eq_range']
  · rw [← hwords, ← WordWindow.answer_eq]
    rfl

/-- A length whose sum with `filled` wraps round, back into range: it is refused, and the next chunk
goes where it would have gone anyway. -/
theorem cursors_keep_order_wrapping :
    let asked : List (Request UInt64) :=
      [.fill 20, .fill 18446744073709551604, .commit 16, .fill 12, .commit 8]
    let requests := asked.map (Request.map UInt64.toNat)
    (0 : UInt64) < 32 ∧ (20 : UInt64) + 18446744073709551604 = 8 ∧
      ∃ start words, ofCapacity 32 = .ok start ∧ WordWindow.ofCapacity 32 = .ok words ∧
        start.extents requests = [⟨0, 20⟩, ⟨20, 32⟩] ∧ Extent.Tile 0 [⟨0, 20⟩, ⟨20, 32⟩] 32 ∧
        start.after requests = ⟨32, 32, 16⟩ ∧ (words.after asked).toWindow = ⟨32, 32, 16⟩ := by
  intro asked requests
  obtain ⟨start, words, hstart, hwords, hall⟩ := cursors_keep_order 32 (by decide)
  obtain ⟨-, -, -, -, ⟨htile, -⟩, hshows, -⟩ := hall asked
  obtain rfl : start = ⟨32, 0, 0⟩ := (Except.ok.inj hstart).symm
  have hextents : (⟨32, 0, 0⟩ : Window).extents requests = [⟨0, 20⟩, ⟨20, 32⟩] := by decide
  have hafter : (⟨32, 0, 0⟩ : Window).after requests = ⟨32, 32, 16⟩ := by decide
  refine ⟨by decide, by decide, _, words, hstart, hwords, hextents, ?_, hafter, hshows.trans hafter⟩
  rw [← hextents]
  exact htile

end Window

end SecureBoot
