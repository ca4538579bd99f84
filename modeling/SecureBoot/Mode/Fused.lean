import SecureBoot.Error
import SecureBoot.Mode.Basic

/-!
The security mode that the boot-security-info fuses of a part select: two bits for the scheme and
one for encryption. A part that has not been moved into secure mode authenticates with the
symmetric key whatever those bits say. `ofFuses_eq_ok_iff` holds the decoder against the table of the
bits (`SelectedBy`).
-/

namespace SecureBoot

inductive FusedMode where
  | symmetric | oemRsa | oemEcc | oemRsaEncrypted | oemEccEncrypted
deriving DecidableEq, Repr

namespace FusedMode

/-- The mode that a fuse word selects on a secure part, by its scheme (the lowest two bits) and its
encryption bit (the third). -/
def ofBits (scheme : Nat) (encrypted : Bool) : Except Error FusedMode :=
  match scheme, encrypted with
  | 0, false => .ok .symmetric
  | 1, false => .ok .oemRsa
  | 1, true => .ok .oemRsaEncrypted
  | 2, false => .ok .oemEcc
  | 2, true => .ok .oemEccEncrypted
  | _, _ => .error .notSupported

def ofFuses (secure : Bool) (info : UInt32) : Except Error FusedMode :=
  if secure then ofBits (info.toNat % 4) (info.toNat.testBit 2) else .ok .symmetric

/-- The one OEM mode that the fuses allow. None is supported for ECC with encryption. -/
def oemMode? : FusedMode → Option CryptoMode
  | .symmetric => some .symmetric
  | .oemRsa => some .oemRsa
  | .oemEcc => some .oemEcc
  | .oemRsaEncrypted => some .oemRsaEncrypted
  | .oemEccEncrypted => none

/-- Only ECC with encryption leaves no OEM mode. -/
theorem oemMode?_eq_none_iff {f : FusedMode} : f.oemMode? = none ↔ f = .oemEccEncrypted := by
  cases f <;> decide

/-! ### What the fuses say -/

/-- The mode that the fuses select, by the bits that are set: `secure` tells if the part has been moved
into secure mode, and only then does `info` count, whose lowest two bits are the scheme and whose
third bit asks for encryption. The scheme 3 selects no mode, nor does the scheme 0 with encryption. -/
inductive SelectedBy (secure : Bool) (info : UInt32) : FusedMode → Prop where
  | insecure (hsecure : secure = false) : SelectedBy secure info .symmetric
  | symmetric (hsecure : secure = true) (hscheme : info &&& 3 = 0) (hplain : info &&& 4 = 0) :
      SelectedBy secure info .symmetric
  | oemRsa (hsecure : secure = true) (hscheme : info &&& 3 = 1) (hplain : info &&& 4 = 0) :
      SelectedBy secure info .oemRsa
  | oemRsaEncrypted (hsecure : secure = true) (hscheme : info &&& 3 = 1)
      (hencrypted : info &&& 4 ≠ 0) : SelectedBy secure info .oemRsaEncrypted
  | oemEcc (hsecure : secure = true) (hscheme : info &&& 3 = 2) (hplain : info &&& 4 = 0) :
      SelectedBy secure info .oemEcc
  | oemEccEncrypted (hsecure : secure = true) (hscheme : info &&& 3 = 2)
      (hencrypted : info &&& 4 ≠ 0) : SelectedBy secure info .oemEccEncrypted

theorem and_three_eq_iff {info n : UInt32} : info &&& 3 = n ↔ info.toNat % 4 = n.toNat := by
  rw [← UInt32.toNat_inj, UInt32.toNat_and, show (3 : UInt32).toNat = 2 ^ 2 - 1 from rfl,
    Nat.and_two_pow_sub_one_eq_mod]

theorem toNat_and_four (info : UInt32) :
    (info &&& 4).toNat = if info.toNat.testBit 2 then 4 else 0 := by
  apply Nat.eq_of_testBit_eq
  intro i
  rw [UInt32.toNat_and, show (4 : UInt32).toNat = 2 ^ 2 from rfl, Nat.testBit_and,
    Nat.testBit_two_pow]
  by_cases hi : 2 = i
  · subst hi
    cases info.toNat.testBit 2 <;> rfl
  · rw [decide_eq_false hi, Bool.and_false]
    split
    · rw [show (4 : Nat) = 2 ^ 2 from rfl, Nat.testBit_two_pow, decide_eq_false hi]
    · rw [Nat.zero_testBit]

theorem and_four_eq_zero_iff {info : UInt32} : info &&& 4 = 0 ↔ info.toNat.testBit 2 = false := by
  rw [← UInt32.toNat_inj, toNat_and_four]
  cases info.toNat.testBit 2 <;> decide

/-- The fuses are decoded to the mode that they select, and refused if they select none. -/
theorem ofFuses_eq_ok_iff {secure : Bool} {info : UInt32} {f : FusedMode} :
    ofFuses secure info = .ok f ↔ SelectedBy secure info f := by
  have hencrypted : info &&& 4 ≠ 0 ↔ info.toNat.testBit 2 = true := by
    rw [ne_eq, and_four_eq_zero_iff, Bool.not_eq_false]
  constructor
  · intro h
    cases secure with
    | false =>
      cases h
      exact .insecure rfl
    | true =>
      rw [ofFuses, if_pos rfl] at h
      generalize hscheme : info.toNat % 4 = scheme, hbit : info.toNat.testBit 2 = bit at h
      -- One goal for each row of the table; the rows that are refused are contradictory.
      unfold ofBits at h
      split at h <;> cases h
      · exact .symmetric rfl (and_three_eq_iff.mpr hscheme) (and_four_eq_zero_iff.mpr hbit)
      · exact .oemRsa rfl (and_three_eq_iff.mpr hscheme) (and_four_eq_zero_iff.mpr hbit)
      · exact .oemRsaEncrypted rfl (and_three_eq_iff.mpr hscheme) (hencrypted.mpr hbit)
      · exact .oemEcc rfl (and_three_eq_iff.mpr hscheme) (and_four_eq_zero_iff.mpr hbit)
      · exact .oemEccEncrypted rfl (and_three_eq_iff.mpr hscheme) (hencrypted.mpr hbit)
  · intro h
    cases h with
    | insecure hsecure =>
      rw [hsecure]
      rfl
    | symmetric hsecure hscheme hplain
    | oemRsa hsecure hscheme hplain
    | oemEcc hsecure hscheme hplain =>
      rw [ofFuses, if_pos hsecure, and_three_eq_iff.mp hscheme, and_four_eq_zero_iff.mp hplain]
      rfl
    | oemRsaEncrypted hsecure hscheme hbit
    | oemEccEncrypted hsecure hscheme hbit =>
      rw [ofFuses, if_pos hsecure, and_three_eq_iff.mp hscheme, hencrypted.mp hbit]
      rfl

theorem SelectedBy.unique {secure : Bool} {info : UInt32} {f g : FusedMode}
    (hf : SelectedBy secure info f) (hg : SelectedBy secure info g) : f = g :=
  Except.ok.inj ((ofFuses_eq_ok_iff.mpr hf).symm.trans (ofFuses_eq_ok_iff.mpr hg))

end FusedMode

end SecureBoot
