import SecureBoot.Board.FuseBank
import SecureBoot.Rollback.Level

/-!
Counters bit by bit. A counter field is read as a number, a burn sets bits of it, and its level is how
many are set. `testBit_ofLE` finds a bit of the number in the bytes, `testBit_ofLE_burned` and
`testBit_ofLE_burnData` say what a burn to a level does, and `toNat_levelOf_burned` where it leaves the
counter: at the level, and past it by as many bits as were set at that position and beyond
(`strays`).
-/

namespace SecureBoot

/-! ### Bits of little-endian numbers -/

theorem testBit_ofLE (b : Bytes) (i : Nat) :
    (ofLE b).testBit i = (b.getD (i / 8) 0).toNat.testBit (i % 8) := by
  induction b generalizing i with
  | nil => simp [ofLE]
  | cons x rest ih =>
    have hx : x.toNat < 2 ^ 8 := x.toNat_lt
    have hsplit : ofLE (x :: rest) = 2 ^ 8 * ofLE rest + x.toNat := Nat.add_comm ..
    rw [hsplit, Nat.testBit_two_pow_mul_add _ hx]
    by_cases hi : i < 8
    · rw [if_pos hi, Nat.div_eq_of_lt hi, Nat.mod_eq_of_lt hi]
      rfl
    · have hdiv : i / 8 = (i - 8) / 8 + 1 := by omega
      have hmod : i % 8 = (i - 8) % 8 := by omega
      rw [if_neg hi, ih, hdiv, hmod, List.getD_cons_succ]

/-- A number has no bits past its bytes. -/
theorem testBit_ofLE_of_le {b : Bytes} {i : Nat} (h : 8 * b.length ≤ i) :
    (ofLE b).testBit i = false := by
  have hnone : b[i / 8]? = none := List.getElem?_eq_none (by omega)
  rw [testBit_ofLE, List.getD_eq_getElem?_getD, hnone]
  exact Nat.zero_testBit _

theorem ofLE_lt_of_length_le {b : Bytes} (h : b.length ≤ 4) : ofLE b < 4294967296 := by
  apply Nat.lt_pow_two_of_testBit (n := 32)
  intro i hi
  exact testBit_ofLE_of_le (by omega)

/-- Writing a number cuts off the bits for which there is no room. -/
theorem testBit_ofLE_toLE (width n i : Nat) :
    (ofLE (toLE width n)).testBit i = (decide (i < 8 * width) && n.testBit i) := by
  induction width generalizing n i with
  | zero => simp [toLE, ofLE]
  | succ width ih =>
    have hlow : n % 256 < 2 ^ 8 := Nat.mod_lt n (by decide)
    have hsplit : ofLE (toLE (width + 1) n) = 2 ^ 8 * ofLE (toLE width (n / 256)) + n % 256 :=
      Nat.add_comm ..
    have hn : n.testBit i =
        if i < 8 then (n % 256).testBit i else (n / 256).testBit (i - 8) := by
      rw [← Nat.testBit_two_pow_mul_add _ hlow]
      exact congrArg (Nat.testBit · i) (Nat.div_add_mod n 256).symm
    rw [hsplit, Nat.testBit_two_pow_mul_add _ hlow, ih, hn]
    by_cases hi : i < 8
    · simp [hi, show i < 8 * (width + 1) by omega]
    · have hiff : i - 8 < 8 * width ↔ i < 8 * (width + 1) := by omega
      simp only [if_neg hi, hiff]

namespace FuseBank

theorem length_burned {value data : Bytes} (h : value.length = data.length) :
    (burned value data).length = value.length := by
  simp [burned, h]

/-- A burn sets the bits of the data and leaves those that were set. -/
theorem testBit_ofLE_burned {value data : Bytes} (h : value.length = data.length) (i : Nat) :
    (ofLE (burned value data)).testBit i = ((ofLE value).testBit i || (ofLE data).testBit i) := by
  have hbyte : (burned value data).getD (i / 8) 0 =
      value.getD (i / 8) 0 ||| data.getD (i / 8) 0 := by
    simp only [burned, List.getD_eq_getElem?_getD, List.getElem?_zipWith]
    by_cases hi : i / 8 < value.length
    · simp [hi, h ▸ hi]
    · simp [hi, h ▸ hi]
  rw [testBit_ofLE, testBit_ofLE, testBit_ofLE, hbyte, UInt8.toNat_or, Nat.testBit_or]

/-! ### Fuses that have been burned -/

/-- A field has kept its size and every bit that was set in it. -/
structure Raises (value value' : Bytes) : Prop where
  length : value'.length = value.length
  bits : ∀ i, (ofLE value).testBit i → (ofLE value').testBit i

theorem Raises.refl (value : Bytes) : Raises value value := ⟨rfl, fun _ => id⟩

theorem Raises.trans {a b c : Bytes} (h : Raises a b) (h' : Raises b c) : Raises a c :=
  ⟨h'.length.trans h.length, fun i hi => h'.bits i (h.bits i hi)⟩

theorem raises_burned {value data : Bytes} (h : value.length = data.length) :
    Raises value (burned value data) where
  length := length_burned h
  bits i hi := by
    rw [testBit_ofLE_burned h, hi]
    rfl

/-- A bank has been burned at most: it has the fields that it had, its counters have kept their bits
and everything else is what it was. -/
structure Grows (bank bank' : FuseBank) : Prop where
  secure : bank'.secure = bank.secure
  info : bank'.info = bank.info
  uniqueId : bank'.uniqueId = bank.uniqueId
  counters : ∀ index : Nat, Option.Rel Raises bank.counters[index]? bank'.counters[index]?

namespace Grows

variable {a b c : FuseBank}

theorem refl (bank : FuseBank) : bank.Grows bank where
  secure := rfl
  info := rfl
  uniqueId := rfl
  counters index := by
    cases bank.counters[index]? with
    | none => exact .none
    | some value => exact .some (.refl value)

theorem trans (h : a.Grows b) (h' : b.Grows c) : a.Grows c where
  secure := h'.secure.trans h.secure
  info := h'.info.trans h.info
  uniqueId := h'.uniqueId.trans h.uniqueId
  counters index := by
    have hab := h.counters index
    have hbc := h'.counters index
    generalize a.counters[index]? = old, b.counters[index]? = mid, c.counters[index]? = new
      at hab hbc ⊢
    cases hab with
    | none =>
      cases hbc
      exact .none
    | some hab =>
      cases hbc with
      | some hbc => exact .some (hab.trans hbc)

/-- A counter is where it was, with the bits that it had. -/
theorem counter (h : a.Grows b) {index : UInt8} {value : Bytes}
    (hvalue : a.field? (.rollbackCounter index) = some value) :
    ∃ value', b.field? (.rollbackCounter index) = some value' ∧ Raises value value' := by
  have hrel := h.counters index.toNat
  rw [show a.counters[index.toNat]? = some value from hvalue] at hrel
  cases hb : b.counters[index.toNat]? with
  | none =>
    rw [hb] at hrel
    cases hrel
  | some value' =>
    rw [hb] at hrel
    cases hrel with
    | some hraises => exact ⟨value', hb, hraises⟩

end Grows

/-- A burn that succeeds is one into a counter of the size of the data. -/
theorem write_eq_ok {bank bank' : FuseBank} {field : FuseField} {data : Bytes}
    (h : bank.write field data = .ok bank') :
    ∃ index value, field = .rollbackCounter index ∧ bank.field? field = some value ∧
      value.length = data.length ∧ bank'.field? field = some (burned value data) ∧
      bank.Grows bank' := by
  cases field with
  | bootSecurityInfo | uniqueId => cases h
  | rollbackCounter index =>
    simp only [write] at h
    cases hvalue : bank.counters[index.toNat]? with
    | none =>
      rw [hvalue] at h
      cases h
    | some value =>
      by_cases hlength : value.length = data.length
      · simp only [hvalue, if_pos hlength] at h
        cases h
        have hindex : index.toNat < bank.counters.length :=
          (List.getElem?_eq_some_iff.mp hvalue).1
        refine ⟨index, value, rfl, hvalue, hlength, List.getElem?_set_self hindex, rfl, rfl, rfl, ?_⟩
        intro j
        by_cases hj : index.toNat = j
        · subst hj
          rw [hvalue, List.getElem?_set_self hindex]
          exact .some (raises_burned hlength)
        · rw [List.getElem?_set_ne hj]
          exact (Grows.refl bank).counters j
      · simp only [hvalue, if_neg hlength] at h
        cases h

end FuseBank

/-! ### Levels -/

namespace Rollback

/-- How many of the lowest 32 bits are set. -/
def bitsSet (n : Nat) : Nat := (List.range 32).countP n.testBit

/-- How many of those are set from a position on. -/
def strays (n position : Nat) : Nat :=
  (List.range 32).countP fun i => decide (position ≤ i) && n.testBit i

theorem bitsSet_le (n : Nat) : bitsSet n ≤ 32 := List.countP_le_length

theorem bitsSet_mono {m n : Nat} (h : ∀ i, m.testBit i → n.testBit i) : bitsSet m ≤ bitsSet n :=
  List.countP_mono_left fun i _ => h i

theorem strays_eq_zero_iff {n position : Nat} :
    strays n position = 0 ↔ ∀ i < 32, position ≤ i → n.testBit i = false := by
  simp [strays, List.countP_eq_zero]

/-- Setting every bit below a position leaves those from there on to make the difference. -/
theorem bitsSet_eq_add_strays {m n position : Nat} (hposition : position ≤ 32)
    (h : ∀ i, m.testBit i = (decide (i < position) || n.testBit i)) :
    bitsSet m = position + strays n position := by
  have hcount : ∀ width, (List.range width).countP m.testBit =
      min position width +
        (List.range width).countP fun i => decide (position ≤ i) && n.testBit i := by
    intro width
    induction width with
    | zero => simp
    | succ width ih =>
      rw [List.range_succ, List.countP_append, List.countP_append, ih]
      simp only [List.countP_singleton, h width]
      by_cases hlow : width < position
      · simp [hlow, Nat.not_le.mpr hlow]
        omega
      · cases n.testBit width <;> simp [hlow, Nat.not_lt.mp hlow] <;> omega
  have hall := hcount 32
  rwa [Nat.min_eq_left hposition] at hall

/-- The level that a counter is at whose field holds these bytes. -/
def levelOf (value : Bytes) : UInt8 := levelOfFuse (UInt32.ofNat (ofLE value))

theorem toNat_levelOf {value : Bytes} (h : value.length ≤ 4) :
    (levelOf value).toNat = bitsSet (ofLE value) := by
  have hword : (UInt32.ofNat (ofLE value)).toNat = ofLE value :=
    UInt32.toNat_ofNat_of_lt' (ofLE_lt_of_length_le h)
  have hbits : bitsSet (ofLE value) < 256 := Nat.lt_of_le_of_lt (bitsSet_le _) (by decide)
  unfold levelOf levelOfFuse
  rw [hword]
  exact UInt8.toNat_ofNat_of_lt' hbits

/-- The level of a counter never falls. -/
theorem levelOf_le_levelOf {value value' : Bytes} (hsize : value.length ≤ 4)
    (h : FuseBank.Raises value value') : levelOf value ≤ levelOf value' := by
  rw [UInt8.le_iff_toNat_le, toNat_levelOf hsize, toNat_levelOf (h.length ▸ hsize)]
  exact bitsSet_mono h.bits

theorem testBit_fuseOfLevel (level : UInt8) (i : Nat) :
    (fuseOfLevel level).toNat.testBit i = decide (i < min level.toNat 32) := by
  have hlt : 1 <<< min level.toNat 32 - 1 < 4294967296 := by
    have hpow : 2 ^ min level.toNat 32 ≤ 2 ^ 32 :=
      Nat.pow_le_pow_right (by decide) (Nat.min_le_right ..)
    rw [Nat.one_shiftLeft]
    omega
  unfold fuseOfLevel
  rw [UInt32.toNat_ofNat_of_lt' hlt, Nat.one_shiftLeft, Nat.testBit_two_pow_sub_one]

@[simp] theorem length_burnData (level : UInt8) (size : Nat) : (burnData level size).length = size :=
  length_toLE ..

/-- The data for a level that fits is the number with exactly the lowest `level` bits set. -/
theorem testBit_ofLE_burnData {level : UInt8} {size : Nat} (hsize : size ≤ 4)
    (hfit : level.toNat ≤ 8 * size) (i : Nat) :
    (ofLE (burnData level size)).testBit i = decide (i < level.toNat) := by
  have hmin : min level.toNat 32 = level.toNat := Nat.min_eq_left (by omega)
  rw [burnData, testBit_ofLE_toLE, testBit_fuseOfLevel, hmin, ← Bool.decide_and]
  exact decide_eq_decide.mpr ⟨And.right, fun hi => ⟨by omega, hi⟩⟩

/-- **Where a burn leaves a counter**: at the level, and past it by the bits that were set from that
position on. -/
theorem toNat_levelOf_burned {value : Bytes} {level : UInt8} (hsize : value.length ≤ 4)
    (hfit : level.toNat ≤ 8 * value.length) :
    (levelOf (FuseBank.burned value (burnData level value.length))).toNat =
      level.toNat + strays (ofLE value) level.toNat := by
  have hlength : value.length = (burnData level value.length).length := by simp
  rw [toNat_levelOf (by rw [FuseBank.length_burned hlength]; exact hsize)]
  apply bitsSet_eq_add_strays (by omega)
  intro i
  rw [FuseBank.testBit_ofLE_burned hlength, testBit_ofLE_burnData hsize hfit, Bool.or_comm]

theorem le_levelOf_burned {value : Bytes} {level : UInt8} (hsize : value.length ≤ 4)
    (hfit : level.toNat ≤ 8 * value.length) :
    level ≤ levelOf (FuseBank.burned value (burnData level value.length)) := by
  rw [UInt8.le_iff_toNat_le, toNat_levelOf_burned hsize hfit]
  exact Nat.le_add_right ..

/-- A burn overshoots the level if a bit was set there or past it. -/
theorem lt_levelOf_burned_iff {value : Bytes} {level : UInt8} (hsize : value.length ≤ 4)
    (hfit : level.toNat ≤ 8 * value.length) :
    level < levelOf (FuseBank.burned value (burnData level value.length)) ↔
      ∃ i, level.toNat ≤ i ∧ (ofLE value).testBit i = true := by
  rw [UInt8.lt_iff_toNat_lt, toNat_levelOf_burned hsize hfit, Nat.lt_add_right_iff_pos,
    Nat.pos_iff_ne_zero, ne_eq, strays_eq_zero_iff]
  constructor
  · intro hstray
    have ⟨i, hi⟩ := Classical.not_forall.mp hstray
    have ⟨_, hi⟩ := Classical.not_imp.mp hi
    have ⟨hle, hset⟩ := Classical.not_imp.mp hi
    exact ⟨i, hle, (Bool.not_eq_false _).mp hset⟩
  · rintro ⟨i, hle, hset⟩ hnone
    have hi : i < 32 := by
      apply Nat.lt_of_not_le
      intro hpast
      rw [testBit_ofLE_of_le (by omega)] at hset
      cases hset
    rw [hnone i hi hle] at hset
    cases hset

end Rollback

end SecureBoot
