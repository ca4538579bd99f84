import SecureBoot.Proofs.Course

/-!
What the engine is fed. An opened session, asked whatever it may be, feeds each operation a beginning
of what the image pushed so far gives to feed (`Opening.strands`): the signed section first if the
operation checks a signature, then the payload as the operations before it have left it. It does so
in order and in pieces that the engine takes, and asks for verdicts on complete regions only
(`operations_keep_to_image`).
-/

namespace SecureBoot.Authenticator

variable {a : Authenticator} {type : BinaryType} {dest : Bytes} {s : Session}

/-- **The feed contract**: the calls that an opened session has made, whatever it has been asked, set
up operations for the first strands of its image, in order. What each operation has been fed is a
beginning of its strand. Each call is in order after those before it, and without faults the engine
refuses none of them: a verdict is refused for a tag that does not match and for nothing else. -/
theorem operations_keep_to_image (h : (openSession type dest).outcome a = .ok s)
    (requests : List Session.Request) :
    ∃ t : Trace, (s.after requests).platform.board.trace = s.platform.board.trace ++ t ∧
      t.Honours t.operations (s.opening.strands (Session.pushed requests)) ∧
      t.Orderly ∧ (a.board.faults = [] → t.Answered) := by
  obtain ⟨hawaits, hfaults⟩ := awaits_of_openSession h
  obtain ⟨t, haccounted⟩ := ((Session.Coherent.awaiting hawaits rfl).after requests).accounted
  refine ⟨t, haccounted.since.trace, haccounted.honours, haccounted.since.orderly, fun hnone => ?_⟩
  exact haccounted.since.answered (hfaults.trans hnone)

/-- An encrypted binary in three pieces, the second of which ends inside a block: the signature is
checked over the signed section and the payload, and the payload is decrypted. Nobody has signed it. -/
theorem operations_keep_to_image_encrypted :
    let a := fresh .t234 (.fresh { FuseBank.blank with secure := true, info := some [5] } [])
      .disabled
    let header := Header.blank .oemRsaEncrypted 40
    let requests : List Session.Request :=
      [.push header.bytes true, .push (List.replicate 23 7) false,
        .push (List.replicate 17 7) false, .finalize]
    ∃ s, (openSession .kernel (List.replicate 40 0)).outcome a = .ok s ∧
      Trace.fed (s.after requests).platform.board.trace 0 =
        header.signedSection ++ List.replicate 40 7 ∧
      Trace.fed (s.after requests).platform.board.trace 1 = List.replicate 40 7 ∧
      .finalize 0 (.error .verifyFailed) ∈ (s.after requests).platform.board.trace ∧
      ∃ t : Trace, (s.after requests).platform.board.trace = s.platform.board.trace ++ t ∧
        t.Honours t.operations (s.opening.strands (Session.pushed requests)) ∧
        t.Orderly ∧ t.Answered := by
  intro a header requests
  have hopen : (openSession .kernel (List.replicate 40 0)).outcome a = .ok _ := rfl
  obtain ⟨t, htrace, hhonours, horderly, hanswered⟩ := operations_keep_to_image hopen requests
  exact ⟨_, hopen, by decide +kernel, by decide +kernel, by decide +kernel, t, htrace, hhonours,
    horderly, hanswered rfl⟩

end SecureBoot.Authenticator
