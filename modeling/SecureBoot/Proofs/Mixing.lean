import SecureBoot.Board.Engine

/-!
Why a change of a single byte shows in a tag. Every step from a digest to the tag is one to one: a
word is mixed with its own upper part (`eq_of_mixed`), multiplied by an odd number (`eq_of_multiplied`)
and spread over eight bytes. So tags of eight bytes or more are equal for equal digests only
(`eq_of_tagOfSeed`), and two streams that differ in one place have digests that never run together
again (`DifferAt.fnv_ne`).
-/

namespace SecureBoot

/-! ### Mixing words -/

section Words

variable {x y : UInt64}

/-- Mixing a word with its own upper part can be undone, from the top bit downwards. -/
theorem eq_of_xor_ushiftRight {w n : Nat} (hn : 0 < n) {x y : BitVec w}
    (h : x ^^^ (x >>> n) = y ^^^ (y >>> n)) : x = y := by
  -- Every bit is mixed with one that stands higher, so the induction is on the distance to the top.
  have hbit : ∀ k i, w ≤ i + k → x.getLsbD i = y.getLsbD i := by
    intro k
    induction k with
    | zero =>
      intro i hi
      rw [BitVec.getLsbD_of_ge x i hi, BitVec.getLsbD_of_ge y i hi]
    | succ k ih =>
      intro i hi
      have hmixed := congrArg (fun b : BitVec w => b.getLsbD i) h
      simp only [BitVec.getLsbD_xor, BitVec.getLsbD_ushiftRight] at hmixed
      rw [ih (n + i) (by omega)] at hmixed
      exact Bool.xor_left_inj.mp hmixed
  exact BitVec.eq_of_getLsbD_eq fun i _ => hbit w i (Nat.le_add_left ..)

theorem eq_of_mixed {n : UInt64} (hn : 0 < n.toNat % 64)
    (h : x ^^^ (x >>> n) = y ^^^ (y >>> n)) : x = y := by
  apply UInt64.toBitVec_inj.mp
  have hbits := congrArg UInt64.toBitVec h
  simp only [UInt64.toBitVec_xor, UInt64.toBitVec_shiftRight, BitVec.ushiftRight_eq'] at hbits
  exact eq_of_xor_ushiftRight (by simpa using hn) hbits

theorem eq_of_multiplied {factor : UInt64} (inverse : UInt64) (hinverse : factor * inverse = 1)
    (h : x * factor = y * factor) : x = y := by
  calc
    x = x * factor * inverse := by rw [UInt64.mul_assoc, hinverse, UInt64.mul_one]
    _ = y * factor * inverse := by rw [h]
    _ = y := by rw [UInt64.mul_assoc, hinverse, UInt64.mul_one]

theorem eq_of_scramble (h : scramble x = scramble y) : x = y := by
  have hsecond := eq_of_multiplied 0x319642b2d24d8ec3 (by decide)
    (eq_of_mixed (by decide) h)
  have hfirst := eq_of_multiplied 0x96de1b173f119089 (by decide)
    (eq_of_mixed (by decide) hsecond)
  exact eq_of_mixed (by decide) hfirst

end Words

/-! ### Tags -/

theorem ofLE_toLE_toNat (x : UInt64) : ofLE (toLE 8 x.toNat) = x.toNat := by
  have := x.toNat_lt
  simp only [toLE, ofLE, UInt8.toNat_ofNat']
  omega

theorem eq_of_toLE {x y : UInt64} (h : toLE 8 x.toNat = toLE 8 y.toNat) : x = y := by
  have hvalue := congrArg ofLE h
  rw [ofLE_toLE_toNat, ofLE_toLE_toNat] at hvalue
  exact UInt64.toNat_inj.mp hvalue

theorem take_tagOfSeed {size : Nat} (h : 8 ≤ size) (seed : UInt64) :
    (tagOfSeed seed size).take 8 = toLE 8 (scramble (seed + 0x9e3779b97f4a7c15)).toNat := by
  obtain ⟨n, hn⟩ : ∃ n, (size + 7) / 8 = n + 1 := ⟨(size + 7) / 8 - 1, by omega⟩
  have hone : UInt64.ofNat (0 + 1) * 0x9e3779b97f4a7c15 = 0x9e3779b97f4a7c15 := by decide
  rw [tagOfSeed, hn, List.take_take, Nat.min_eq_left h, List.range_succ_eq_map, List.flatMap_cons,
    List.take_left' (length_toLE 8 _), hone]

/-- A tag that is long enough tells from which seed it has grown. -/
theorem eq_of_tagOfSeed {size : Nat} (hsize : 8 ≤ size) {x y : UInt64}
    (h : tagOfSeed x size = tagOfSeed y size) : x = y := by
  have hfront := congrArg (List.take 8) h
  rw [take_tagOfSeed hsize, take_tagOfSeed hsize] at hfront
  exact (UInt64.add_left_inj _).mp (eq_of_scramble (eq_of_toLE hfront))

/-! ### Digests -/

theorem eq_of_fnvStep {x y : UInt64} {a b : UInt8} (h : fnvStep x a = fnvStep y b) :
    x ^^^ a.toUInt64 = y ^^^ b.toUInt64 :=
  eq_of_multiplied 0xce965057aff6957b (by decide) h

/-- Digests that have been continued over the same bytes were the same before. -/
theorem eq_of_fnv {x y : UInt64} {data : Bytes} (h : fnv x data = fnv y data) : x = y := by
  induction data generalizing x y with
  | nil => exact h
  | cons b rest ih => exact (UInt64.xor_left_inj _).mp (eq_of_fnvStep (ih h))

/-! ### Bytes that differ in one place -/

/-- The byte strings are equally long and differ in place `n` only. -/
structure DifferAt (n : Nat) (a b : Bytes) : Prop where
  length_eq : a.length = b.length
  ne : a[n]? ≠ b[n]?
  eq_of_ne : ∀ i, i ≠ n → a[i]? = b[i]?

namespace DifferAt

variable {n : Nat} {a b c : Bytes}

theorem lt_length (h : DifferAt n a b) : n < a.length := by
  rcases Nat.lt_or_ge n a.length with hlt | hge
  · exact hlt
  · refine absurd ?_ h.ne
    rw [List.getElem?_eq_none hge, List.getElem?_eq_none (h.length_eq ▸ hge)]

theorem of_set {x : UInt8} (hn : n < a.length) (hx : a[n]? ≠ some x) : DifferAt n a (a.set n x) where
  length_eq := List.length_set.symm
  ne := by rwa [List.getElem?_set_self hn]
  eq_of_ne := fun i hi => (List.getElem?_set_ne fun hni => hi hni.symm).symm

theorem append_left (h : DifferAt n a b) (c : Bytes) : DifferAt (c.length + n) (c ++ a) (c ++ b) where
  length_eq := by rw [List.length_append, List.length_append, h.length_eq]
  ne := by
    rw [List.getElem?_append_right (Nat.le_add_right ..),
      List.getElem?_append_right (Nat.le_add_right ..), Nat.add_sub_cancel_left]
    exact h.ne
  eq_of_ne := by
    intro i hi
    rcases Nat.lt_or_ge i c.length with hlt | hge
    · rw [List.getElem?_append_left hlt, List.getElem?_append_left hlt]
    · rw [List.getElem?_append_right hge, List.getElem?_append_right hge]
      exact h.eq_of_ne _ (by omega)

theorem append_right (h : DifferAt n a b) (c : Bytes) : DifferAt n (a ++ c) (b ++ c) where
  length_eq := by rw [List.length_append, List.length_append, h.length_eq]
  ne := by
    rw [List.getElem?_append_left h.lt_length,
      List.getElem?_append_left (h.length_eq ▸ h.lt_length)]
    exact h.ne
  eq_of_ne := by
    intro i hi
    rw [List.getElem?_append, List.getElem?_append, h.length_eq, h.eq_of_ne i hi]

/-- A stretch around the place differs there and nowhere else. -/
theorem slice {start width : Nat} (h : DifferAt n a b) (hstart : start ≤ n)
    (hend : n < start + width) :
    DifferAt (n - start) (SecureBoot.slice a start width) (SecureBoot.slice b start width) where
  length_eq := by rw [length_slice, length_slice, h.length_eq]
  ne := by
    rw [getElem?_slice, getElem?_slice, if_pos (by omega), if_pos (by omega),
      Nat.add_sub_cancel' hstart]
    exact h.ne
  eq_of_ne := by
    intro i hi
    rw [getElem?_slice, getElem?_slice, h.eq_of_ne (start + i) (by omega)]

/-- A stretch without the place is the same. -/
theorem slice_eq {start width : Nat} (h : DifferAt n a b)
    (hn : ¬ (start ≤ n ∧ n < start + width)) :
    SecureBoot.slice a start width = SecureBoot.slice b start width := by
  apply List.ext_getElem?
  intro i
  rw [getElem?_slice, getElem?_slice]
  split
  · rw [h.eq_of_ne (start + i) (by omega)]
  · rfl

/-- Decryption works byte by byte. -/
theorem decryptAt (h : DifferAt n a b) (slot : KeySlot) (iv : Bytes) (position : Nat) :
    DifferAt n (SecureBoot.decryptAt slot iv position a)
      (SecureBoot.decryptAt slot iv position b) where
  length_eq := by rw [length_decryptAt, length_decryptAt, h.length_eq]
  ne := by
    intro heq
    rw [SecureBoot.decryptAt, SecureBoot.decryptAt, List.getElem?_mapIdx, List.getElem?_mapIdx]
      at heq
    refine h.ne (Option.map_injective ?_ heq)
    exact fun x y hxy => (UInt8.xor_left_inj _).mp hxy
  eq_of_ne := by
    intro i hi
    rw [SecureBoot.decryptAt, SecureBoot.decryptAt, List.getElem?_mapIdx, List.getElem?_mapIdx,
      h.eq_of_ne i hi]

/-- The difference as two bytes in the midst of what is the same. -/
theorem exists_eq_append (h : DifferAt n a b) :
    ∃ (front back : Bytes) (x y : UInt8), x ≠ y ∧ a = front ++ x :: back ∧ b = front ++ y :: back := by
  have ha := h.lt_length
  have hb : n < b.length := h.length_eq ▸ ha
  have hfront : a.take n = b.take n := by
    apply List.ext_getElem?
    intro i
    rw [List.getElem?_take, List.getElem?_take]
    split
    · rw [h.eq_of_ne i (by omega)]
    · rfl
  have hback : a.drop (n + 1) = b.drop (n + 1) := by
    apply List.ext_getElem?
    intro i
    rw [List.getElem?_drop, List.getElem?_drop, h.eq_of_ne _ (by omega)]
  refine ⟨a.take n, a.drop (n + 1), a[n], b[n], fun heq => ?_, ?_, ?_⟩
  · apply h.ne
    rw [List.getElem?_eq_getElem ha, List.getElem?_eq_getElem hb, heq]
  · rw [List.getElem_cons_drop, List.take_append_drop]
  · rw [hfront, hback, List.getElem_cons_drop, List.take_append_drop]

/-- **A difference in one place shows in the digest.** -/
theorem fnv_ne (h : DifferAt n a b) (acc : UInt64) : fnv acc a ≠ fnv acc b := by
  obtain ⟨front, back, x, y, hne, rfl, rfl⟩ := h.exists_eq_append
  intro heq
  rw [fnv_append, fnv_append] at heq
  have hstep : fnvStep (fnv acc front) x = fnvStep (fnv acc front) y := eq_of_fnv heq
  have hbytes := (UInt64.xor_right_inj _).mp (eq_of_fnvStep hstep)
  exact hne (UInt8.toUInt64_inj.mp hbytes)

end DifferAt

end SecureBoot
