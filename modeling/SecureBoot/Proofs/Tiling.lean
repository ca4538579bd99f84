import SecureBoot.Window

/-!
What becomes of a window, whatever is asked of it. A request is answered in one of four ways
(`Window.Serves`), and none of them puts the cursors out of order or moves one back
(`Window.advances_after`). The extents that are taken up follow one upon the other (`Extent.Tile`), so
each position up to `filled` lies in exactly one of them (`Window.tile_extents`).
-/

namespace SecureBoot

/-! ### Extents one upon the other -/

namespace Extent

def positions (e : Extent) : List Nat := List.range' e.start (e.stop - e.start)

/-- The extents begin at the first position, each where the one before it ends, and they end at the
last position. -/
inductive Tile : Nat → List Extent → Nat → Prop where
  | nil {start : Nat} : Tile start [] start
  | cons {start next stop : Nat} {rest : List Extent} (hle : start ≤ next)
      (hrest : Tile next rest stop) : Tile start (⟨start, next⟩ :: rest) stop

namespace Tile

variable {start stop : Nat} {extents : List Extent}

theorem le (h : Tile start extents stop) : start ≤ stop := by
  induction h with
  | nil => exact Nat.le_refl _
  | cons hle _ ih => exact Nat.le_trans hle ih

/-- One after the other the extents list every position once. -/
theorem flatMap_positions (h : Tile start extents stop) :
    extents.flatMap positions = List.range' start (stop - start) := by
  induction h with
  | @nil start => rw [Nat.sub_self, List.flatMap_nil, List.range'_zero]
  | @cons start next stop rest hle hrest ih =>
    have hnext : next = start + (next - start) := by omega
    have hlength : stop - start = next - start + (stop - next) := by
      have := hrest.le
      omega
    calc (⟨start, next⟩ :: rest).flatMap positions
        = List.range' start (next - start) ++ List.range' next (stop - next) := by
          rw [List.flatMap_cons, ih, positions]
      _ = List.range' start (next - start) ++
            List.range' (start + (next - start)) (stop - next) := by rw [← hnext]
      _ = List.range' start (stop - start) := by rw [List.range'_append_1, ← hlength]

end Tile

end Extent

/-! ### What may be asked of a window -/

namespace Window

/-- A request, whose argument is a number or a machine word. -/
inductive Request (α : Type) where
  | fill (n : α)
  | commit (position : α)
deriving DecidableEq, Repr

def Request.map {α β : Type} (f : α → β) : Request α → Request β
  | .fill n => .fill (f n)
  | .commit position => .commit (f position)

inductive Answer where
  | fill (result : Except Error Extent)
  | commit (result : Except Error Unit)
deriving DecidableEq, Repr

/-- The extent that has been taken up, if that is what was asked for and what came of it. -/
def Answer.extent? : Answer → Option Extent
  | .fill (.ok extent) => some extent
  | _ => none

/-- What a window answers to a request, and what becomes of it. -/
def answer (w : Window) : Request Nat → Answer × Window
  | .fill n => Prod.map .fill id ((fill n).exec w)
  | .commit position => Prod.map .commit id ((commit position).exec w)

/-- The window after some requests. -/
def after (w : Window) (requests : List (Request Nat)) : Window :=
  requests.foldl (fun w r => (w.answer r).2) w

/-- The extents that some requests take up, read off the answers. -/
def extents (w : Window) : List (Request Nat) → List Extent
  | [] => []
  | r :: rest => (w.answer r).1.extent?.toList ++ extents (w.answer r).2 rest

/-! ### A single request -/

theorem exec_fill (n : Nat) (w : Window) :
    (fill n).exec w =
      if w.filled + n ≤ w.capacity then
        (.ok ⟨w.filled, w.filled + n⟩, { w with filled := w.filled + n })
      else (.error .overflow, w) := by
  unfold Step.exec
  rw [run_fill]
  by_cases h : w.filled + n ≤ w.capacity
  · rw [if_pos h, if_pos h]
  · rw [if_neg h, if_neg h]

theorem exec_commit (position : Nat) (w : Window) :
    (commit position).exec w =
      if w.safe ≤ position ∧ position ≤ w.filled then (.ok (), { w with safe := position })
      else (.error .invalid, w) := by
  unfold Step.exec
  rw [run_commit]
  by_cases h : w.safe ≤ position ∧ position ≤ w.filled
  · rw [if_pos h, if_pos h]
  · rw [if_neg h, if_neg h]

/-- What a request comes to, with the window that it leaves. -/
inductive Serves (w : Window) : Request Nat → Answer → Window → Prop where
  | filled {n : Nat} (h : w.filled + n ≤ w.capacity) :
      Serves w (.fill n) (.fill (.ok ⟨w.filled, w.filled + n⟩)) { w with filled := w.filled + n }
  | full {n : Nat} (h : w.capacity < w.filled + n) :
      Serves w (.fill n) (.fill (.error .overflow)) w
  | committed {position : Nat} (hsafe : w.safe ≤ position) (hfilled : position ≤ w.filled) :
      Serves w (.commit position) (.commit (.ok ())) { w with safe := position }
  | misplaced {position : Nat} (h : position < w.safe ∨ w.filled < position) :
      Serves w (.commit position) (.commit (.error .invalid)) w

theorem serves (w : Window) (r : Request Nat) : w.Serves r (w.answer r).1 (w.answer r).2 := by
  cases r with
  | fill n =>
    rw [answer, exec_fill]
    split
    · exact .filled ‹_›
    · exact .full (by omega)
  | commit position =>
    rw [answer, exec_commit]
    split
    · exact .committed (And.left ‹_›) (And.right ‹_›)
    · exact .misplaced (by omega)

/-! ### Runs of requests -/

structure InOrder (w : Window) : Prop where
  safe_le : w.safe ≤ w.filled
  filled_le : w.filled ≤ w.capacity

/-- A window becomes another one with no cursor moved back and none out of order. -/
structure Advances (w w' : Window) : Prop where
  capacity_eq : w'.capacity = w.capacity
  filled_le : w.filled ≤ w'.filled
  safe_le : w.safe ≤ w'.safe
  inOrder : w.InOrder → w'.InOrder

variable {w w' w'' : Window}

namespace Advances

theorem refl (w : Window) : Advances w w :=
  ⟨rfl, Nat.le_refl _, Nat.le_refl _, id⟩

theorem trans (h : Advances w w') (h' : Advances w' w'') : Advances w w'' where
  capacity_eq := h'.capacity_eq.trans h.capacity_eq
  filled_le := Nat.le_trans h.filled_le h'.filled_le
  safe_le := Nat.le_trans h.safe_le h'.safe_le
  inOrder horder := h'.inOrder (h.inOrder horder)

end Advances

theorem Serves.advances {r : Request Nat} {x : Answer} (h : w.Serves r x w') : Advances w w' := by
  cases h with
  | filled hspace =>
    exact ⟨rfl, Nat.le_add_right _ _, Nat.le_refl _,
      fun horder => ⟨Nat.le_add_right_of_le horder.safe_le, hspace⟩⟩
  | committed hsafe hfilled =>
    exact ⟨rfl, Nat.le_refl _, hsafe, fun horder => ⟨hfilled, horder.filled_le⟩⟩
  | full | misplaced => exact Advances.refl w

theorem advances_after (w : Window) (requests : List (Request Nat)) :
    Advances w (w.after requests) := by
  induction requests generalizing w with
  | nil => exact Advances.refl w
  | cons r rest ih => exact (w.serves r).advances.trans (ih _)

/-- What a request takes up begins where `filled` stood and ends where it stands then. -/
theorem Serves.tile {r : Request Nat} {x : Answer} {rest : List Extent} {stop : Nat}
    (h : w.Serves r x w') (hrest : Extent.Tile w'.filled rest stop) :
    Extent.Tile w.filled (x.extent?.toList ++ rest) stop := by
  cases h with
  | filled => exact .cons (Nat.le_add_right _ _) hrest
  | full | committed | misplaced => exact hrest

theorem tile_extents (w : Window) (requests : List (Request Nat)) :
    Extent.Tile w.filled (w.extents requests) (w.after requests).filled := by
  induction requests generalizing w with
  | nil => exact .nil
  | cons r rest ih => exact (w.serves r).tile (ih _)

end Window

end SecureBoot
