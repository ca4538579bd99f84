import SecureBoot.Proofs.Bypass

/-!
The order in which a token image is judged. An image in which no token can be made out is refused without
a call. Otherwise the part reads its identity, and only with that at hand it looks at the magic, the
version and the device of the token (`Authenticator.Refuses`). So the identity comes before the magic and
the version: a token of the wrong kind is refused for whatever keeps the part from its identity, and
never without a look at the fuses (`Authenticator.bypassRollback_reads_before_judging`).
-/

namespace SecureBoot

open Step
open Rollback (Token tokenMagic)

namespace Board.Reading

variable {b : Board} {field : FuseField} {takes : Nat → Prop} {r : Except Error Bytes} {u : Trace}

/-- Every reading asks for the size of its field. -/
theorem exists_query (h : b.Reading field takes r u) : ∃ size rest, u = .query field size :: rest := by
  cases h <;> exact ⟨_, _, rfl⟩

/-- A reading fails otherwise than by the size of the field because of a fault, or because there is no
such field. -/
theorem error_ne_invalid_iff (h : b.Reading field takes r u) :
    (∃ e, r = .error e ∧ e ≠ .invalid) ↔
      (∃ e, b.fault? .query = some e ∧ e ≠ .invalid) ∨
      b.fault? .query = none ∧ (b.fuses.field? field = none ∨
        ∃ value e, b.fuses.field? field = some value ∧ takes value.length ∧
          b.fault? .read = some e ∧ e ≠ .invalid) := by
  cases h with
  | unasked hquery => simp [hquery]
  | missing hquery hfield => simp [hquery, hfield]
  | refused hquery hfield htakes => simp [hquery, hfield, htakes]
  | unread hquery hfield htakes hread => simp [hquery, hfield, htakes, hread]
  | read hquery hfield htakes hread => simp [hquery, hfield, hread]

end Board.Reading

namespace Rollback.Token

theorem check_eq_error {t : Token} {version : UInt32} {uniqueId : Bytes} {e : Error}
    (h : t.check version uniqueId = .error e) : e = .invalid := by
  unfold check at h
  split_ifs at h <;> cases h <;> rfl

end Rollback.Token

namespace Authenticator

variable {a : Authenticator} {image : Bytes} {h : Header} {token : Token}

/-! ### Refusals -/

/-- Reading the identity of the part. -/
abbrev Identifies (a : Authenticator) : Except Error Bytes → Trace → Prop :=
  a.board.Reading .uniqueId fun size => size = 16

/-- How an image is refused before anything is asked of the engine, with the error and the calls. The cases
stand in the order in which the part gets to them. -/
inductive Refuses (a : Authenticator) (image : Bytes) : Error → Trace → Prop where
  | malformed {e : Error} (hparse : parseToken image = .error e) : Refuses a image e []
  | unidentified {token : Token} {e : Error} {u : Trace} (hparse : parseToken image = .ok token)
      (hread : a.Identifies (.error e) u) : Refuses a image e u
  | unfit {token : Token} {uniqueId : Bytes} {e : Error} {u : Trace}
      (hparse : parseToken image = .ok token) (hread : a.Identifies (.ok uniqueId) u)
      (hcheck : token.check a.chip.tokenVersion uniqueId = .error e) : Refuses a image e u

/-- **An image that is not meant for the part** is refused in one of these ways. -/
theorem ensures_bypassRollback_refuses (hnames : ¬ a.NamesPart image) :
    Ensures (bypassRollback image) a (fun _ _ => False)
      (fun e a' => ∃ u, a.Refuses image e u ∧ a' = a.setBoard (a.board.recordAll u)) := by
  simp only [bypassRollback, ensures_bind, ensures_get]
  cases hparse : parseToken image with
  | error e =>
    have hsame : a = a.setBoard (a.board.recordAll []) := by
      simp [setBoard, board, Board.recordAll]
    exact ⟨[], .malformed hparse, hsame⟩
  | ok token =>
    simp only [ensures_ofExcept_ok, onBoard, ensures_focus, Board.readUniqueId_eq]
    apply (Board.ensures_readSized_reading _ _ a.board).mono
    · rintro uniqueId b ⟨u, hread, rfl⟩
      cases hcheck : token.check a.chip.tokenVersion uniqueId with
      | error e => exact ⟨u, .unfit hparse hread hcheck, rfl⟩
      | ok =>
        have hid : a.board.fuses.uniqueId = some uniqueId := by
          cases hread with
          | read _ hfield => exact hfield
        exact absurd ⟨token, uniqueId, hparse, hid, hcheck⟩ hnames
    · rintro e b ⟨u, hread, rfl⟩
      exact ⟨u, .unidentified hparse hread, rfl⟩

/-! ### Tokens of the wrong kind -/

/-- A token image with a header in order that declares a token, and room for one behind it. -/
structure Carries (image : Bytes) (h : Header) (t : Token) : Prop where
  length : tokenImageSize ≤ image.length
  announced : Header.Announced image
  header : image.take Header.size = h.bytes
  declares : h.length = Token.size
  body : (image.drop Header.size).take Token.size = t.bytes

theorem Carries.parseToken_eq (hcarries : Carries image h token) : parseToken image = .ok token :=
  parseToken_eq_ok_iff.mpr ⟨h,
    Header.parse_eq_some_iff.mpr
      ⟨hcarries.announced, hcarries.header, Nat.le_of_eq hcarries.declares⟩,
    ⟨hcarries.declares, hcarries.length⟩, hcarries.body⟩

/-- A token image in order whose token has a wrong magic, or a wrong version for the chip. -/
structure Misfit (a : Authenticator) (image : Bytes) (h : Header) (t : Token) : Prop
    extends Carries image h t where
  misfit : t.magic ≠ tokenMagic ∨ t.version ≠ a.chip.tokenVersion

theorem Misfit.not_namesPart (hmisfit : a.Misfit image h token) : ¬ a.NamesPart image := by
  rintro ⟨token', uniqueId, hparse, -, hcheck⟩
  cases hmisfit.parseToken_eq.symm.trans hparse
  obtain ⟨hmagic, hversion, -⟩ := Token.check_eq_ok_iff.mp hcheck
  rcases hmisfit.misfit with hwrong | hwrong
  · exact hwrong hmagic
  · exact hwrong hversion

/-- A token of the wrong kind is refused for what the reading of the identity comes to, and as invalid
only if that succeeds. -/
theorem Misfit.exists_reading (hmisfit : a.Misfit image h token) {e : Error} {u : Trace}
    (hrefuses : a.Refuses image e u) :
    ∃ r, a.Identifies r u ∧ (r >>= fun _ => .error .invalid : Except Error Unit) = .error e := by
  cases hrefuses with
  | malformed hparse => cases hmisfit.parseToken_eq.symm.trans hparse
  | unidentified _ hread => exact ⟨_, hread, rfl⟩
  | unfit _ hread hcheck =>
    cases Token.check_eq_error hcheck
    exact ⟨_, hread, rfl⟩

/-- **The identity is read before a token is judged.** A token of the wrong kind, in an image that is in
order, is refused for what reading the identity of the part comes to, and is found to be invalid only
after that has succeeded. So it is not refused as invalid exactly if a fault strikes the reading or
there is no identity, and in any case the fuses are asked. Nothing but these calls is left behind. -/
theorem bypassRollback_reads_before_judging (hmisfit : a.Misfit image h token) :
    let t : Turn := ⟨a, .bypassRollback image⟩
    (∃ r, a.Identifies r t.calls ∧
      t.answer = .bypassRollback (r >>= fun _ => .error .invalid)) ∧
    (t.answer ≠ .bypassRollback (.error .invalid) ↔
      (∃ e, a.board.fault? .query = some e ∧ e ≠ .invalid) ∨
      a.board.fault? .query = none ∧ (a.board.fuses.uniqueId = none ∨
        ∃ uniqueId e, a.board.fuses.uniqueId = some uniqueId ∧ uniqueId.length = 16 ∧
          a.board.fault? .read = some e ∧ e ≠ .invalid)) ∧
    (∃ size rest, t.calls = .query .uniqueId size :: rest) ∧
    t.after = a.setBoard (a.board.recordAll t.calls) := by
  intro t
  have hrefuses := ensures_bypassRollback_refuses hmisfit.not_namesPart
  cases hout : (bypassRollback image).outcome a with
  | ok => exact (hrefuses.outcome_ok hout).elim
  | error e =>
    obtain ⟨u, hu, hfinal⟩ := hrefuses.outcome_error hout
    obtain ⟨r, hread, herror⟩ := hmisfit.exists_reading hu
    have hafter : t.after = a.setBoard (a.board.recordAll u) := hfinal
    have hcalls : t.calls = u := Turn.calls_eq (congrArg (fun a' => a'.board.trace) hafter)
    have hanswer : t.answer = .bypassRollback (r >>= fun _ => .error .invalid) :=
      congrArg Answer.bypassRollback (hout.trans herror.symm)
    have hother : t.answer ≠ .bypassRollback (.error .invalid) ↔ ∃ e, r = .error e ∧ e ≠ .invalid := by
      rw [hanswer]
      cases r with
      | error e' => simp [bind, Except.bind]
      | ok uniqueId => simp [bind, Except.bind]
    rw [hcalls]
    exact ⟨⟨r, hread, hanswer⟩, hother.trans hread.error_ne_invalid_iff, hread.exists_query, hafter⟩

/-- A token of another version for a part with an identity that a fault keeps from being read. -/
theorem bypassRollback_reads_before_judging_version :
    let token := Token.make 2 (List.replicate 16 7)
    let header := Header.blank .oemRsa 32
    let part := fresh .t194
      (.fresh { FuseBank.blank with uniqueId := some (List.replicate 16 7) } [⟨.read, 0, .hardware⟩])
      { enabled := true, fuseIndex := 0, level := 1, floor := fun _ => 1 }
    let t : Turn := ⟨part, .bypassRollback (header.bytes ++ token.bytes)⟩
    part.Misfit (header.bytes ++ token.bytes) header token ∧
      t.answer ≠ .bypassRollback (.error .invalid) ∧ t.calls ≠ [] := by
  intro token header part t
  have hmisfit : part.Misfit (header.bytes ++ token.bytes) header token := by
    refine ⟨⟨?_, ?_, ?_, ?_, ?_⟩, ?_⟩
    all_goals decide +kernel
  obtain ⟨-, hiff, ⟨_, _, hquery⟩, -⟩ := bypassRollback_reads_before_judging hmisfit
  refine ⟨hmisfit, hiff.mpr (.inr ⟨rfl, .inr ⟨List.replicate 16 7, .hardware, rfl, rfl, rfl, ?_⟩⟩), ?_⟩
  · decide
  · rw [hquery]
    exact List.cons_ne_nil _ _

/-- A token that is all zeros is not found to be invalid by a part without an identity, which looks for
that first. -/
theorem bypassRollback_misjudges :
    let token : Token := ⟨Block.zero Token.size⟩
    let header := Header.blank .oemRsa 32
    let part := fresh .t194 (.fresh .blank [])
      { enabled := true, fuseIndex := 0, level := 1, floor := fun _ => 1 }
    let t : Turn := ⟨part, .bypassRollback (header.bytes ++ token.bytes)⟩
    part.Misfit (header.bytes ++ token.bytes) header token ∧
      t.answer = .bypassRollback (.error .notFound) ∧
      t.calls = [.query .uniqueId (.error .notFound)] := by
  intro token header part t
  refine ⟨⟨⟨?_, ?_, ?_, ?_, ?_⟩, ?_⟩, ?_, ?_⟩
  all_goals decide +kernel

end Authenticator

end SecureBoot
