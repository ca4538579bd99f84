import SecureBoot.Error
import SecureBoot.Header.Basic

/-!
Looking for a header at the start of some bytes. The search is purely structural, so malformed
input is turned away before the security engine is asked for anything. `parse_eq_none_iff` and
`parse_eq_some_iff` say exactly when there is no header and when there is an acceptable one.
-/

namespace SecureBoot

/-- What the length that a header declares is held against. -/
inductive SizeLimit where
  /-- The payload of an outermost header has to fit the destination. -/
  | capacity (bytes : Nat)
  /-- The payload of a nested header has to fit the payload around it. -/
  | enclosing (bytes : Nat)
deriving DecidableEq, Repr

namespace SizeLimit

def bytes : SizeLimit → Nat
  | .capacity n => n
  | .enclosing n => n

/-- The error for a header that declares more than the limit. -/
def excess : SizeLimit → Error
  | .capacity _ => .overflow
  | .enclosing _ => .invalid

end SizeLimit

namespace Header

/-- Whether the bytes start as a header does. -/
def Announced (b : Bytes) : Prop := b.take 4 = gshvMagic ∨ b.take 4 = nvdaMagic

instance (b : Bytes) : Decidable (Announced b) := inferInstanceAs (Decidable (_ ∨ _))

/-- The header at the start of the bytes. That there is none is no error: it is how a payload
without a wrapper is told apart. -/
def parse (b : Bytes) (limit : SizeLimit) : Except Error (Option Header) :=
  if Announced b then
    match Block.ofStart? size b with
    | none => .error .invalid
    | some block =>
      let header : Header := ⟨block⟩
      if limit.bytes < header.length then .error limit.excess else .ok (some header)
  else .ok none

theorem parse_eq_none_iff {b : Bytes} {limit : SizeLimit} :
    parse b limit = .ok none ↔ ¬ Announced b := by
  unfold parse
  split
  · next h =>
    simp only [h, not_true_eq_false, iff_false]
    split
    · simp
    · split <;> simp
  · next h => simp [h]

theorem parse_eq_some_iff {b : Bytes} {limit : SizeLimit} {h : Header} :
    parse b limit = .ok (some h) ↔
      Announced b ∧ b.take size = h.bytes ∧ h.length ≤ limit.bytes := by
  unfold parse
  split
  · next ha =>
    simp only [ha, true_and]
    split
    · next hn =>
      have hlt := Block.ofStart?_eq_none_iff.mp hn
      simp only [reduceCtorEq, false_iff, not_and]
      intro hb
      have := congrArg List.length hb
      simp [size] at this hlt
      omega
    · next block hs =>
      have hb := Block.ofStart?_eq_some_iff.mp hs
      split
      · next hlt =>
        simp only [reduceCtorEq, false_iff, not_and, Nat.not_le]
        intro heq
        have : h = ⟨block⟩ := by
          cases h
          congr
          exact Block.ext (heq.symm.trans hb)
        rwa [this]
      · next hle =>
        simp only [Except.ok.injEq, Option.some.injEq]
        constructor
        · rintro rfl
          exact ⟨hb, Nat.le_of_not_lt hle⟩
        · rintro ⟨heq, -⟩
          cases h
          congr
          exact Block.ext (hb.symm.trans heq)
  · next ha => simp [ha]

end Header

end SecureBoot
