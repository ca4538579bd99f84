/-!
Byte strings and the two things done to a stretch of one: reading it out (`slice`) and writing
over it (`overwrite`). Writing never changes the length, and what it does is seen by reading.
-/

namespace SecureBoot

abbrev Bytes := List UInt8

/-- The `width` bytes from `start` on, or as many of them as there are. -/
def slice (b : Bytes) (start width : Nat) : Bytes :=
  (b.drop start).take width

/-- Writes `piece` over the bytes from `start` on. Bytes past the end of `b` are not written. -/
def overwrite (b : Bytes) (start : Nat) (piece : Bytes) : Bytes :=
  b.take start ++ piece.take (b.length - start) ++ b.drop (start + piece.length)

/-- Cuts a value to `width` bytes, or fills it up with zeros. -/
def fit (width : Nat) (value : Bytes) : Bytes :=
  value.take width ++ List.replicate (width - value.length) 0

@[simp] theorem length_slice (b : Bytes) (start width : Nat) :
    (slice b start width).length = min width (b.length - start) := by
  simp [slice]

@[simp] theorem length_overwrite (b : Bytes) (start : Nat) (piece : Bytes) :
    (overwrite b start piece).length = b.length := by
  simp [overwrite]; omega

@[simp] theorem length_fit (width : Nat) (value : Bytes) : (fit width value).length = width := by
  simp [fit]; omega

theorem fit_of_length_eq {width : Nat} {value : Bytes} (h : value.length = width) :
    fit width value = value := by
  simp [fit, ← h]

theorem getElem?_slice (b : Bytes) (start width i : Nat) :
    (slice b start width)[i]? = if i < width then b[start + i]? else none := by
  simp [slice, List.getElem?_take]

theorem getElem?_overwrite (b : Bytes) (start : Nat) (piece : Bytes) (i : Nat)
    (h : start + piece.length ≤ b.length) :
    (overwrite b start piece)[i]? =
      if start ≤ i ∧ i < start + piece.length then piece[i - start]? else b[i]? := by
  have hs : min start b.length = start := by omega
  simp only [overwrite, List.append_assoc, List.getElem?_append, List.length_take, hs,
    List.getElem?_take, List.getElem?_drop, List.take_of_length_le (show piece.length ≤
      b.length - start by omega)]
  by_cases h1 : i < start
  · simp [h1, show ¬ start ≤ i by omega]
  · by_cases h2 : i < start + piece.length
    · simp [h1, h2, show start ≤ i by omega, show i - start < piece.length by omega]
    · simp [h1, h2, show ¬ i - start < piece.length by omega,
        show start + piece.length + (i - start - piece.length) = i by omega]

/-- What has been written is read back. -/
theorem slice_overwrite_self {b : Bytes} {start : Nat} {piece : Bytes}
    (h : start + piece.length ≤ b.length) :
    slice (overwrite b start piece) start piece.length = piece := by
  apply List.ext_getElem?
  intro i
  rw [getElem?_slice, getElem?_overwrite b start piece _ h]
  by_cases hi : i < piece.length
  · simp [hi]
  · simp [hi]

/-- A stretch that a write does not touch reads as before. -/
theorem slice_overwrite_of_disjoint {b : Bytes} {start : Nat} {piece : Bytes} {start' width : Nat}
    (h : start + piece.length ≤ b.length)
    (hd : start + piece.length ≤ start' ∨ start' + width ≤ start) :
    slice (overwrite b start piece) start' width = slice b start' width := by
  apply List.ext_getElem?
  intro i
  rw [getElem?_slice, getElem?_slice, getElem?_overwrite b start piece _ h]
  by_cases hi : i < width
  · simp only [hi, if_true]
    rw [if_neg (by omega)]
  · simp [hi]

end SecureBoot
