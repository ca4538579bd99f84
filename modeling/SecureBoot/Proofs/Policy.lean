import SecureBoot.Proofs.Bounds
import SecureBoot.Proofs.Readings

/-!
Which headers a chain may have. A header claims its mode itself, so what it may claim is held against
the fuses or the chip (`Authenticator.Admits`), against what its type of binary allows, and against
the headers around it: an OEM header leaves no OEM mode. A session narrows what it permits with each
header that it accepts, and `Session.Obeys` says that at any moment it permits exactly what these
rules do. A change is looked at only for the header that joins the chain in it, if there is one
(`Session.Bounded.modes_change`).
-/

namespace SecureBoot

open Step

/-! ### What the fuses select -/

/-- The fuses select the mode: there is a field of one to four bytes, and its bits say so. -/
def FuseBank.Selects (bank : FuseBank) (f : FusedMode) : Prop :=
  ∃ info, bank.info = some info ∧ (1 ≤ info.length ∧ info.length ≤ 4) ∧
    FusedMode.SelectedBy bank.secure (UInt32.ofNat (ofLE info)) f

theorem FuseBank.Selects.unique {bank : FuseBank} {f g : FusedMode} (hf : bank.Selects f)
    (hg : bank.Selects g) : f = g := by
  obtain ⟨info, hinfo, -, hf⟩ := hf
  obtain ⟨info', hinfo', -, hg⟩ := hg
  cases hinfo.symm.trans hinfo'
  exact hf.unique hg

theorem Board.ensures_readFusedMode (b : Board) :
    Ensures readFusedMode b (fun f _ => b.fuses.Selects f) (fun _ _ => True) := by
  simp only [readFusedMode, readWord_eq, ensures_bind, ensures_get, ensures_pure]
  refine (ensures_readSized _ _ b).mono ?_ fun _ _ _ => trivial
  rintro info b' ⟨hinfo, hsize, -⟩
  cases hmode : FusedMode.ofFuses b.fuses.secure (UInt32.ofNat (ofLE info)) with
  | error e => exact trivial
  | ok f => exact ⟨info, hinfo, hsize, FusedMode.ofFuses_eq_ok_iff.mp hmode⟩

namespace Authenticator

variable {a : Authenticator} {type : BinaryType} {dest : Bytes} {s : Session}

/-- The fused mode that counts: the one that has been read before, or else what the fuses select. -/
def Selects (a : Authenticator) (f : FusedMode) : Prop :=
  match a.fusedMode with
  | some kept => f = kept
  | none => a.board.fuses.Selects f

/-- The modes that a header for a type of binary may be authenticated in at all: the chip's own for
rollback tokens, and otherwise NVIDIA's and the one of the fuses. -/
def Admits (a : Authenticator) (type : BinaryType) (m : CryptoMode) : Prop :=
  if type = .rollbackToken then m = a.chip.tokenMode
  else m = .nvidiaRsa ∨ ∃ f, a.Selects f ∧ f.oemMode? = some m

/-- Where the modes of a type of binary come from. -/
def Provides (a : Authenticator) (type : BinaryType) (source : ModeSource) : Prop :=
  if type = .rollbackToken then source = .fixed a.chip.tokenMode
  else ∃ f, a.Selects f ∧ source = .fused f

theorem Selects.unique {f g : FusedMode} (hf : a.Selects f) (hg : a.Selects g) : f = g := by
  unfold Selects at hf hg
  cases hkept : a.fusedMode with
  | some kept =>
    rw [hkept] at hf hg
    exact hf.trans hg.symm
  | none =>
    rw [hkept] at hf hg
    exact FuseBank.Selects.unique hf hg

theorem Provides.admits_iff {source : ModeSource} (h : a.Provides type source) {m : CryptoMode} :
    source.Admits m ↔ a.Admits type m := by
  unfold Provides at h
  unfold Authenticator.Admits
  by_cases htoken : type = .rollbackToken
  · rw [if_pos htoken] at h ⊢
    subst h
    exact Iff.rfl
  · rw [if_neg htoken] at h ⊢
    obtain ⟨f, hf, rfl⟩ := h
    refine or_congr_right ⟨fun hm => ⟨f, hf, hm⟩, ?_⟩
    rintro ⟨g, hg, hm⟩
    exact hf.unique hg ▸ hm

theorem ensures_modeSource_provides (a : Authenticator) (type : BinaryType) :
    Ensures (modeSource type) a (fun source a' => a.Provides type source ∧ a'.chip = a.chip)
      (fun _ _ => True) := by
  simp only [modeSource, Provides, ensures_bind, ensures_get]
  by_cases htoken : type = .rollbackToken
  · simp only [if_pos htoken, ensures_pure, and_self]
  · simp only [if_neg htoken, ensures_bind, decodeFuses, ensures_get, ensures_pure]
    unfold Selects
    cases a.fusedMode with
    | some kept => exact ⟨⟨kept, rfl, rfl⟩, rfl⟩
    | none =>
      simp only [ensures_bind, onBoard, ensures_focus, ensures_modify, ensures_pure]
      refine (Board.ensures_readFusedMode a.board).mono ?_ fun _ _ _ => trivial
      exact fun f _ hf => ⟨⟨f, hf, rfl⟩, rfl⟩

/-- What a session is opened with, the hardware and the destination aside. -/
theorem provides_of_openSession (hopen : (openSession type dest).outcome a = .ok s) :
    a.Provides type s.source ∧ s.nvidiaHeader = (a.chip.policy type).nvidiaHeader := by
  have hensures : Ensures (openSession type dest) a
      (fun s _ => a.Provides type s.source ∧
        s.nvidiaHeader = (a.chip.policy type).nvidiaHeader) (fun _ _ => True) := by
    simp only [openSession, ensures_bind, ensures_require]
    refine ⟨fun hne => ?_, fun _ => trivial⟩
    refine (ensures_modeSource_provides a type).mono ?_ fun _ _ _ => trivial
    rintro source a' ⟨hsource, hchip⟩
    have hlength : dest.length ≠ 0 := fun hzero => hne (List.eq_nil_of_length_eq_zero hzero)
    have hwindow : Window.ofCapacity dest.length = .ok ⟨dest.length, 0, 0⟩ := if_neg hlength
    simp only [ensures_get, Session.start, hwindow, hchip]
    exact ⟨hsource, rfl⟩
  exact hensures.outcome_ok hopen

end Authenticator

/-! ### NVIDIA signatures -/

/-- The modes of a chain, outermost first, meet the policy. -/
def NvidiaPolicy.MetBy (modes : List CryptoMode) : NvidiaPolicy → Prop
  | .notRequired => True
  | .anyHeader => .nvidiaRsa ∈ modes
  | .outerHeader => modes.head? = some .nvidiaRsa

theorem NvidiaPolicy.isMet_map_iff {policy : NvidiaPolicy} {modes : List CryptoMode} :
    policy.isMet (modes.map fun m => decide (m = .nvidiaRsa)) ↔ policy.MetBy modes := by
  cases policy with
  | notRequired => simp [isMet, MetBy]
  | anyHeader => simp [isMet, MetBy]
  | outerHeader => cases modes <;> simp [isMet, MetBy]

theorem CryptoMode.eq_nvidiaRsa_of_not_isOem {m : CryptoMode} (h : m.isOem = false) :
    m = .nvidiaRsa := by
  cases m with
  | nvidiaRsa => rfl
  | symmetric | oemRsa | oemEcc | oemRsaEncrypted => cases h

namespace Session

variable {s s' : Session}

/-- The modes of the chain, outermost first. -/
def modes (s : Session) : List CryptoMode := s.chain.layers.map Layer.mode

/-- The NVIDIA signatures that are required after some requests, given those before. -/
def required (policy : NvidiaPolicy) (requests : List Request) : NvidiaPolicy :=
  requests.foldl Request.required policy

theorem policy_after (s : Session) (requests : List Request) :
    (s.after requests).nvidiaHeader = required s.nvidiaHeader requests := by
  induction requests generalizing s with
  | nil => rfl
  | cons r rest ih => rw [after_cons, ih, policy_answer, required, required, List.foldl_cons]

/-- A binary is found authentic only in modes that meet the policy in force. -/
theorem metBy_of_finalize {v : Verified} (hok : finalize.outcome s = .ok v) :
    s.nvidiaHeader.MetBy s.modes := by
  have hjudge : Ensures judge s (fun _ _ => s.nvidiaHeader.MetBy s.modes) (fun _ _ => True) := by
    simp only [judge, ensures_bind, ensures_get, ensures_require]
    refine ⟨fun _ => ?_, fun _ => trivial⟩
    cases s.chain.outer? with
    | none => exact trivial
    | some outer =>
      cases s.chain.innermost? with
      | none => exact trivial
      | some innermost =>
        simp only [ensures_bind, ensures_require]
        refine ⟨fun _ => ⟨fun hmet => ?_, fun _ => trivial⟩, fun _ => trivial⟩
        have hmodes : s.chain.layers.map Layer.isNvidia =
            s.modes.map fun m => decide (m = .nvidiaRsa) := by
          rw [modes, List.map_map]
          rfl
        rw [hmodes, NvidiaPolicy.isMet_map_iff] at hmet
        unfold Ensures
        split
        · exact hmet
        · exact trivial
  have hfinalize : Ensures finalize s (fun _ _ => s.nvidiaHeader.MetBy s.modes)
      (fun _ _ => True) := ensures_ensuring.mpr hjudge
  exact hfinalize.outcome_ok hok

/-! ### Headers that join the chain -/

/-- A change leaves the modes of the chain and what is permitted inside it alone, unless a header joins
the chain. -/
theorem Bounded.modes_change (h : s.Bounded) (hchange : s.Change s') :
    s'.source = s.source ∧
      (s'.modes = s.modes ∧ s'.permitted = s.permitted ∨
        ∃ (header : Header) (mode : CryptoMode),
          resolve header.signingWord s.source s.permitted = .ok mode ∧
          s'.modes = s.modes ++ [mode] ∧ s'.permitted = s.permitted.inside mode) := by
  cases hchange with
  | asked | taken | spoiled | committed | required | stopped => exact ⟨rfl, .inl ⟨rfl, rfl⟩⟩
  | ran hworks => exact ⟨rfl, .inl ⟨hworks.map_layers rfl, rfl⟩⟩
  | released =>
    refine ⟨rfl, .inl ⟨?_, rfl⟩⟩
    rw [modes, release, Chain.layers_map, List.map_map]
    rfl
  | settledSingle hchain =>
    refine ⟨rfl, .inl ⟨?_, rfl⟩⟩
    rw [modes, modes, hchain]
    rfl
  | @opened header mode hphase hfit hmode =>
    refine ⟨rfl, .inr ⟨header, mode, hmode, ?_, rfl⟩⟩
    rw [modes, modes, h.awaiting hphase]
    rfl
  | @settledNested outer header mode hchain hdone hfit hmode =>
    refine ⟨rfl, .inr ⟨header, mode, hmode, ?_, rfl⟩⟩
    rw [modes, modes, hchain]
    rfl

/-- The chain consists of modes that are allowed, and so it stays: what is permitted for a header that
is yet to come is what is allowed next to those of the chain. -/
structure Obeys (source : ModeSource) (allowed : ModeSet) (s : Session) : Prop where
  source_eq : s.source = source
  permitted : ∀ m, m ∈ s.permitted ↔ m ∈ allowed ∧ (m.isOem → ∀ n ∈ s.modes, n.isOem = false)
  allowed : ∀ m ∈ s.modes, m ∈ allowed
  oem_le : s.modes.countP (·.isOem) ≤ 1

namespace Obeys

variable {source : ModeSource} {allowed : ModeSet}

theorem change (h : s.Obeys source allowed) (hbounded : s.Bounded) (hchange : s.Change s') :
    s'.Obeys source allowed := by
  obtain ⟨hsource, ⟨hmodes, hpermitted⟩ | ⟨header, mode, hmode, hmodes, hpermitted⟩⟩ :=
    hbounded.modes_change hchange
  · exact
      { source_eq := hsource.trans h.source_eq
        permitted := by
          rw [hpermitted, hmodes]
          exact h.permitted
        allowed := by
          rw [hmodes]
          exact h.allowed
        oem_le := by
          rw [hmodes]
          exact h.oem_le }
  · obtain ⟨-, -, hmem⟩ := resolve_eq_ok_iff.mp hmode
    obtain ⟨hallowed, hoem⟩ := (h.permitted mode).mp hmem
    refine ⟨hsource.trans h.source_eq, fun m => ?_, ?_, ?_⟩
    · rw [hpermitted, ModeSet.mem_inside, h.permitted, hmodes, List.forall_mem_append,
        List.forall_mem_singleton]
      constructor
      · rintro ⟨⟨hm, hothers⟩, hinside⟩
        refine ⟨hm, fun hmoem => ⟨hothers hmoem, Bool.eq_false_iff.mpr fun hmode' => ?_⟩⟩
        exact absurd hmoem (Bool.eq_false_iff.mp (hinside hmode'))
      · rintro ⟨hm, hall⟩
        refine ⟨⟨hm, fun hmoem => (hall hmoem).1⟩, fun hmode' => Bool.eq_false_iff.mpr ?_⟩
        exact fun hmoem => absurd hmode' (Bool.eq_false_iff.mp (hall hmoem).2)
    · rw [hmodes, List.forall_mem_append, List.forall_mem_singleton]
      exact ⟨h.allowed, hallowed⟩
    · rw [hmodes, List.countP_append]
      cases hmoem : mode.isOem with
      | false => simpa [hmoem] using h.oem_le
      | true =>
        -- An OEM header joins others only.
        have hnone : s.modes.countP (·.isOem) = 0 :=
          List.countP_eq_zero.mpr fun n hn => Bool.eq_false_iff.mp (hoem hmoem n hn)
        rw [hnone, List.countP_singleton, hmoem]
        decide

/-- A mode resolves by the rules of the source and those of the chain. -/
theorem resolve_iff (h : s.Obeys source allowed) {claim : UInt32} {m : CryptoMode} :
    resolve claim s.source s.permitted = .ok m ↔
      claim.toNat = m.signingType.number ∧ source.Admits m ∧
        m ∈ allowed ∧ (m.isOem → ∀ n ∈ s.modes, n.isOem = false) := by
  rw [resolve_eq_ok_iff, h.permitted, h.source_eq]

/-- Where NVIDIA's mode is not allowed there is one header at most. -/
theorem length_modes_le (h : s.Obeys source allowed) (hoem : ∀ m ∈ allowed, m.isOem) :
    s.modes.length ≤ 1 := by
  have hall : s.modes.countP (·.isOem) = s.modes.length :=
    List.countP_eq_length.mpr fun m hm => hoem m (h.allowed m hm)
  exact hall ▸ h.oem_le

/-- What is inside an OEM header is signed by NVIDIA. -/
theorem inner_eq (h : s.Obeys source allowed) {m n : CryptoMode} (hmodes : s.modes = [m, n])
    (hoem : m.isOem) : n = .nvidiaRsa := by
  have hle := h.oem_le
  rw [hmodes] at hle
  cases hn : n.isOem with
  | false => exact CryptoMode.eq_nvidiaRsa_of_not_isOem hn
  | true =>
    rw [List.countP_cons_of_pos hoem, List.countP_cons_of_pos hn] at hle
    exact absurd hle (by omega)

end Obeys

theorem obeys_of_reaches {source : ModeSource} {allowed : ModeSet} (h : s.Obeys source allowed)
    (hbounded : s.Bounded) (hreach : s.Reaches s') : s'.Obeys source allowed := by
  have hboth : s'.Bounded ∧ s'.Obeys source allowed :=
    hreach.keeps (p := fun s => s.Bounded ∧ s.Obeys source allowed)
      (fun h hchange => ⟨h.1.change hchange, h.2.change h.1 hchange⟩) ⟨hbounded, h⟩
  exact hboth.2

theorem Awaits.obeys {o : Opening} {policy : NvidiaPolicy} {t : Trace} (h : s.Awaits o policy t) :
    s.Obeys o.source o.permitted := by
  have hmodes : s.modes = [] := by
    rw [modes, h.chain]
    rfl
  refine ⟨h.source, fun m => ?_, ?_, ?_⟩
  · rw [h.permitted, hmodes]
    exact ⟨fun hm => ⟨hm, fun _ _ hn => absurd hn List.not_mem_nil⟩, fun hm => hm.1⟩
  · rw [hmodes]
    exact fun m hm => absurd hm List.not_mem_nil
  · rw [hmodes]
    exact Nat.zero_le _

end Session

/-! ### The policy of a chain -/

namespace Authenticator

variable {a : Authenticator} {type : BinaryType} {dest : Bytes} {s : Session}

/-- A header may join headers of these modes in a mode of its own: it claims the mode, which is allowed
for the type of binary, not a second one of the OEM's, and admitted by the chip or the fuses. -/
structure MayJoin (a : Authenticator) (type : BinaryType) (modes : List CryptoMode) (h : Header)
    (m : CryptoMode) : Prop where
  claimed : h.signingWord.toNat = m.signingType.number
  allowed : m ∈ (a.chip.policy type).allowed
  oem : m.isOem → ∀ n ∈ modes, n.isOem = false
  admitted : a.Admits type m

/-- The chain of a session keeps to the policy for the type of binary. -/
structure KeepsPolicy (a : Authenticator) (type : BinaryType) (s : Session) : Prop where
  resolves : ∀ h m, resolve h.signingWord s.source s.permitted = .ok m ↔ a.MayJoin type s.modes h m
  headers : s.headerCount ≤ 2
  oem : s.modes.countP (·.isOem) ≤ 1
  allowed : ∀ m ∈ s.modes, m ∈ (a.chip.policy type).allowed
  inner : ∀ m n, s.modes = [m, n] → m.isOem → n = .nvidiaRsa
  token : type = .rollbackToken → s.headerCount ≤ 1
  oemOnly : (∀ m ∈ (a.chip.policy type).allowed, m.isOem) → s.headerCount ≤ 1

theorem isOem_of_allowed_rollbackToken {chip : Chip} {m : CryptoMode}
    (hm : m ∈ (chip.policy .rollbackToken).allowed) : m.isOem := by
  obtain rfl := List.mem_singleton.mp hm
  cases chip <;> rfl

theorem keepsPolicy_of_obeys {source : ModeSource} (hsource : a.Provides type source)
    (h : s.Obeys source (a.chip.policy type).allowed) : a.KeepsPolicy type s := by
  have hcount : s.headerCount = s.modes.length := (List.length_map _).symm
  have honly : (∀ m ∈ (a.chip.policy type).allowed, m.isOem) → s.headerCount ≤ 1 := fun hoem =>
    hcount ▸ h.length_modes_le hoem
  refine
    { resolves := fun header m => ?_
      headers := s.chain.length_layers_le
      oem := h.oem_le
      allowed := h.allowed
      inner := fun m n => h.inner_eq
      token := ?_
      oemOnly := honly }
  · rw [h.resolve_iff, hsource.admits_iff]
    constructor
    · rintro ⟨hclaimed, hadmitted, hallowed, hoem⟩
      exact ⟨hclaimed, hallowed, hoem, hadmitted⟩
    · rintro ⟨hclaimed, hallowed, hoem, hadmitted⟩
      exact ⟨hclaimed, hadmitted, hallowed, hoem⟩
  · rintro rfl
    exact honly fun m hm => isOem_of_allowed_rollbackToken hm

/-- **The policy of a chain**: whatever an opened session goes through, in the midst of a request too,
a header resolves to a mode exactly if it may join the headers that are there, so that there are two
headers at most, one of them the OEM's at most, each in a mode that is allowed, and only NVIDIA's
inside the OEM's. A binary is found authentic only if the headers meet the NVIDIA policy in force, which
is the last that has been required, or else that of the type. -/
theorem chain_obeys_policy (hopen : (openSession type dest).outcome a = .ok s) :
    (∀ later, s.Reaches later → a.KeepsPolicy type later) ∧
      ∀ requests, s.Reaches (s.after requests) ∧
        ∀ v, Session.finalize.outcome (s.after requests) = .ok v →
          (Session.required (a.chip.policy type).nvidiaHeader requests).MetBy
            (s.after requests).modes := by
  obtain ⟨hawaits, -⟩ := awaits_of_openSession hopen
  obtain ⟨hsource, hpolicy⟩ := provides_of_openSession hopen
  obtain ⟨-, hopening, -⟩ := (ensures_openSession (.refl a.board) rfl type dest).outcome_ok hopen
  have hobeys := hawaits.obeys
  rw [congrArg Opening.permitted hopening] at hobeys
  refine ⟨fun later hlater => ?_, fun requests => ⟨s.reaches_after requests, fun v hv => ?_⟩⟩
  · exact keepsPolicy_of_obeys hsource (Session.obeys_of_reaches hobeys hawaits.bounded hlater)
  · have hmet := Session.metBy_of_finalize hv
    rw [Session.policy_after, hpolicy] at hmet
    exact hmet

/-- Inside a header that the OEM has signed, the same claim is not taken a second time. -/
theorem chain_obeys_policy_oem :
    let part := fresh .t194 (.fresh { FuseBank.blank with info := some [0] } []) .disabled
    let header := Header.blank .symmetric 32
    ∃ s, (openSession .mb1 (List.replicate 32 0)).outcome part = .ok s ∧
      (s.after [.push header.bytes true]).modes = [.symmetric] ∧
      ∀ h : Header, h.signingWord.toNat = SigningType.symmetric.number → ∀ m,
        resolve h.signingWord (s.after [.push header.bytes true]).source
          (s.after [.push header.bytes true]).permitted ≠ .ok m := by
  intro part header
  have hopen : (openSession .mb1 (List.replicate 32 0)).outcome part = .ok _ := rfl
  refine ⟨_, hopen, by decide +kernel, fun h hclaim m hresolve => ?_⟩
  obtain ⟨hkeeps, hrequests⟩ := chain_obeys_policy hopen
  have hjoin := ((hkeeps _ (hrequests [.push header.bytes true]).1).resolves h m).mp hresolve
  have hmode : m = .symmetric := by
    apply CryptoMode.signingType_injective
    exact SigningType.number_injective (hjoin.claimed.symm.trans hclaim)
  subst hmode
  have hnone := hjoin.oem rfl .symmetric (by decide +kernel)
  cases hnone

end Authenticator

end SecureBoot
