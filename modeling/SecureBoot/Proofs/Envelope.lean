import Mathlib.Data.List.Forall2
import SecureBoot.Proofs.Trace
import SecureBoot.Session.Operations

/-!
Envelopes: headers with the mode that they are authenticated in, and what is to become of the
payload inside. The jobs of an envelope (`Envelope.jobs`) are its operations before they are set up,
`transformAll` is what they make of payload, and its strands (`Envelope.strands`) say what each job
is to be fed: a verifying job the signed section first, and every job what the jobs before it have
made of the payload.

Payload may come in pieces: `transformAll_append` and `strands_prefix` say that more payload only
adds to what is known. `Envelope.portion` is how much of what is available runs at once, and
`Layer.done_add_runnable` that a layer which runs what it may run always arrives there.
-/

namespace SecureBoot

/-! ### Jobs -/

namespace Job

/-- What a job makes of payload that begins at a position. -/
def transform (j : Job) (position : Nat) (data : Bytes) : Bytes :=
  match j.algorithm, j.setup.key with
  | .aesCbcDecrypt, .slot slot => decryptAt slot j.setup.iv position data
  | _, _ => data

variable (j : Job) (position : Nat)

@[simp] theorem length_transform (data : Bytes) :
    (j.transform position data).length = data.length := by
  unfold transform
  split
  · exact length_decryptAt ..
  · rfl

theorem transform_append (a b : Bytes) :
    j.transform position (a ++ b) =
      j.transform position a ++ j.transform (position + a.length) b := by
  unfold transform
  split
  · exact decryptAt_append ..
  · rfl

@[simp] theorem transform_nil : j.transform position [] = [] :=
  List.eq_nil_of_length_eq_zero (length_transform j position [])

theorem transform_of_verifies {j : Job} (h : j.algorithm.verifies = true) (position : Nat)
    (data : Bytes) : j.transform position data = data := by
  unfold transform
  split
  · rename_i halg _
    rw [halg] at h
    cases h
  · rfl

end Job

/-- What jobs make of payload that begins at a position, each working on what the one before it has
made. -/
def transformAll : List Job → Nat → Bytes → Bytes
  | [], _, data => data
  | j :: rest, position, data => transformAll rest position (j.transform position data)

@[simp] theorem length_transformAll (jobs : List Job) (position : Nat) (data : Bytes) :
    (transformAll jobs position data).length = data.length := by
  induction jobs generalizing data with
  | nil => rfl
  | cons j rest ih => rw [transformAll, ih, Job.length_transform]

theorem transformAll_append (jobs : List Job) (position : Nat) (a b : Bytes) :
    transformAll jobs position (a ++ b) =
      transformAll jobs position a ++ transformAll jobs (position + a.length) b := by
  induction jobs generalizing a b with
  | nil => rfl
  | cons j rest ih =>
    simp only [transformAll]
    rw [Job.transform_append, ih, Job.length_transform]

theorem transformAll_take (jobs : List Job) (position n : Nat) (data : Bytes) :
    transformAll jobs position (data.take n) = (transformAll jobs position data).take n := by
  rcases Nat.le_total n data.length with hn | hn
  · have h := transformAll_append jobs position (data.take n) (data.drop n)
    rw [List.take_append_drop] at h
    rw [h]
    exact (List.take_left' (by simp [hn])).symm
  · rw [List.take_of_length_le hn, List.take_of_length_le (by simpa using hn)]

/-! ### Strands -/

/-- A job with all that it is to be fed, as far as that is known. -/
structure Strand where
  job : Job
  input : Bytes
deriving DecidableEq, Repr

/-- A job that has not been fed anything yet. -/
def Strand.bare (j : Job) : Strand := ⟨j, []⟩

/-- The same job, with perhaps more known of what it is to be fed. -/
def Strand.Grows (s s' : Strand) : Prop := s.job = s'.job ∧ s.input <+: s'.input

theorem Strand.Grows.refl (s : Strand) : s.Grows s := ⟨rfl, List.prefix_refl _⟩

/-- The strands of one list grow into the first ones of another. -/
def Begins (ss ss' : List Strand) : Prop := ∃ r, r <+: ss' ∧ List.Forall₂ Strand.Grows ss r

namespace Begins

variable {ss ss' : List Strand}

theorem nil (ss : List Strand) : Begins [] ss := ⟨[], List.nil_prefix, .nil⟩

theorem of_forall₂ (h : List.Forall₂ Strand.Grows ss ss') : Begins ss ss' :=
  ⟨ss', List.prefix_refl _, h⟩

theorem append_right (h : Begins ss ss') (more : List Strand) : Begins ss (ss' ++ more) := by
  obtain ⟨r, hr, hgrows⟩ := h
  exact ⟨r, hr.trans (List.prefix_append ..), hgrows⟩

end Begins

namespace Header

/-- What an operation is fed ahead of the payload. -/
def lead (h : Header) (algorithm : Algorithm) : Bytes :=
  if algorithm.verifies then h.signedSection else []

/-- What each job is to be fed for a payload. -/
def strands (h : Header) : List Job → Bytes → List Strand
  | [], _ => []
  | j :: rest, payload =>
    ⟨j, h.lead j.algorithm ++ payload⟩ :: h.strands rest (j.transform 0 payload)

theorem bare_prefix (h : Header) (jobs : List Job) (payload : Bytes) :
    List.Forall₂ Strand.Grows (jobs.map Strand.bare) (h.strands jobs payload) := by
  induction jobs generalizing payload with
  | nil => exact .nil
  | cons j rest ih => exact .cons ⟨rfl, List.nil_prefix⟩ (ih _)

/-- More payload adds to what each job is to be fed and leaves the rest as it is. -/
theorem strands_prefix (h : Header) (jobs : List Job) {p q : Bytes} (hpq : p <+: q) :
    List.Forall₂ Strand.Grows (h.strands jobs p) (h.strands jobs q) := by
  induction jobs generalizing p q with
  | nil => exact .nil
  | cons j rest ih =>
    refine .cons ⟨rfl, (List.prefix_append_right_inj _).mpr hpq⟩ (ih ?_)
    obtain ⟨more, rfl⟩ := hpq
    rw [Job.transform_append]
    exact List.prefix_append _ _

end Header

/-! ### Keys -/

/-- The key material that a session may use: slots, and the sub-keys of the CMAC slot. -/
structure KeyRing where
  keys : KeyTable
  subkeys : Subkeys
deriving DecidableEq, Repr

namespace CryptoMode

def decryptSlot (m : CryptoMode) (keys : KeyTable) : KeySlot :=
  match m with
  | .nvidiaRsa => keys.nvidiaDecrypt
  | _ => keys.oemDecrypt

/-- Whether the signature is checked with a public key that the header selects. -/
def usesOemKey : CryptoMode → Bool
  | .oemRsa | .oemEcc | .oemRsaEncrypted => true
  | _ => false

/-- The key for an operation of the mode, if the header selects one that exists. -/
def chosenKey (m : CryptoMode) (keys : KeyTable) (keyIndex : UInt8) : Algorithm → Key
  | .aesCmac => .slot keys.cmac
  | .aesCbcDecrypt => .slot (m.decryptSlot keys)
  | .rsaPss | .ecdsa => if m.usesOemKey then .oem keyIndex else .nvidia

theorem key_eq_ok {m : CryptoMode} {keyIndex : UInt8} {alg : Algorithm} (halg : alg ∈ m.plan)
    (h : m.usesOemKey → keyIndex.toNat < oemPublicKeys) (keys : KeyTable) :
    m.key keys keyIndex alg = .ok (m.chosenKey keys keyIndex alg) := by
  cases m <;> cases alg <;> simp_all [plan, key, chosenKey, decryptSlot, usesOemKey]

/-- Selecting a key that does not exist shows at the first operation of the mode. -/
theorem key_eq_error {m : CryptoMode} {keyIndex : UInt8} (hm : m.usesOemKey)
    (h : ¬ keyIndex.toNat < oemPublicKeys) (keys : KeyTable) :
    ∃ alg rest, m.plan = alg :: rest ∧ m.key keys keyIndex alg = .error .invalid := by
  cases m <;> simp_all [plan, key, usesOemKey]

theorem granule_eq (m : CryptoMode) : m.granule = 1 ∨ m.granule = 16 := by
  cases m <;> decide

theorem granule_eq_of_mem {m : CryptoMode} (h : .aesCbcDecrypt ∈ m.plan) : m.granule = 16 := by
  cases m <;> first | decide | exact absurd h (by decide)

end CryptoMode

/-! ### Envelopes -/

/-- A header with the mode that it is authenticated in. -/
structure Envelope where
  header : Header
  mode : CryptoMode
deriving DecidableEq, Repr

namespace Envelope

variable (ring : KeyRing) (e : Envelope)

def size (e : Envelope) : Nat := e.header.length

/-- Whether the key that the header selects exists, if the mode needs one. -/
def HasKey (e : Envelope) : Prop :=
  e.mode.usesOemKey → e.header.keyIndex.toNat < CryptoMode.oemPublicKeys

instance : Decidable e.HasKey := inferInstanceAs (Decidable (_ → _))

def job (algorithm : Algorithm) : Job where
  algorithm := algorithm
  setup :=
    { e.header.setup algorithm (e.mode.chosenKey ring.keys e.header.keyIndex algorithm) with
      subkeys := if algorithm = .aesCmac then some ring.subkeys else none }

/-- The operations of the envelope, in the order in which data runs through them. -/
def jobs : List Job := e.mode.plan.map (e.job ring)

/-- The payload once every operation has run over it. -/
def output (payload : Bytes) : Bytes := transformAll (e.jobs ring) 0 payload

def strands (payload : Bytes) : List Strand := e.header.strands (e.jobs ring) payload

@[simp] theorem length_output (payload : Bytes) :
    (e.output ring payload).length = payload.length := length_transformAll ..

theorem output_take (n : Nat) (payload : Bytes) :
    e.output ring (payload.take n) = (e.output ring payload).take n := transformAll_take ..

/-- An operation is set up for exactly what it is to be fed. -/
theorem regionSize_job (algorithm : Algorithm) :
    (e.job ring algorithm).setup.regionSize = (e.header.lead algorithm).length + e.size := by
  cases algorithm <;> simp [job, Header.setup, Header.lead, Algorithm.verifies,
    Header.coveredSize, Header.signedSize, size]

theorem key_job_decrypt :
    (e.job ring .aesCbcDecrypt).setup.key = .slot (e.mode.decryptSlot ring.keys) := rfl

theorem regionSize_of_mem_jobs {j : Job} (hj : j ∈ e.jobs ring) :
    j.setup.regionSize = (e.header.lead j.algorithm).length + e.size := by
  obtain ⟨algorithm, -, rfl⟩ := List.mem_map.mp hj
  exact e.regionSize_job ring algorithm

theorem granule_of_mem_jobs {j : Job} (hj : j ∈ e.jobs ring)
    (hd : j.algorithm = .aesCbcDecrypt) : e.mode.granule = 16 := by
  obtain ⟨algorithm, halg, rfl⟩ := List.mem_map.mp hj
  exact CryptoMode.granule_eq_of_mem (hd ▸ halg)

/-! ### How much runs at once -/

/-- How much of the payload has run once `available` bytes of it have been there: all of it, or as
many whole granules as there are. -/
def portion (available : Nat) : Nat :=
  if e.size ≤ available then e.size else available - available % e.mode.granule

/-- Where a run over the payload may stop. -/
def Aligned (n : Nat) : Prop := n = e.size ∨ e.mode.granule ∣ n

variable {e} {a b : Nat}

theorem portion_of_size_le (h : e.size ≤ a) : e.portion a = e.size := if_pos h

theorem portion_le : e.portion a ≤ a := by
  unfold portion
  split
  · assumption
  · exact Nat.sub_le ..

theorem portion_le_size : e.portion a ≤ e.size := by
  unfold portion
  split
  · exact Nat.le_refl _
  · omega

theorem aligned_portion (a : Nat) : e.Aligned (e.portion a) := by
  unfold portion
  split
  · exact .inl rfl
  · exact .inr (Nat.dvd_sub_mod a)

theorem aligned_zero : e.Aligned 0 := .inr (Nat.dvd_zero _)

/-- A run over a payload that begins with a header may stop behind the header. -/
theorem aligned_header (e : Envelope) : e.Aligned Header.size := by
  refine .inr ?_
  rcases e.mode.granule_eq with hg | hg <;> rw [hg] <;> decide

/-- Between two stops short of the end there are whole granules. -/
theorem granule_dvd {n : Nat} (ha : e.Aligned a) (hb : e.Aligned (a + n)) (hlt : a + n < e.size) :
    e.mode.granule ∣ n := by
  rcases ha with hall | ha
  · omega
  · rcases hb with hall | hb
    · omega
    · exact (Nat.dvd_add_right ha).mp hb

/-- Running on from where a run has stopped arrives where one run would have stopped. -/
theorem sub_mod_granule (ha : e.mode.granule ∣ a) (hab : a ≤ b) :
    a + (b - a - (b - a) % e.mode.granule) = b - b % e.mode.granule := by
  obtain ⟨k, rfl⟩ := ha
  have hmod : (b - e.mode.granule * k) % e.mode.granule = b % e.mode.granule :=
    Nat.sub_mul_mod hab
  have hle : b % e.mode.granule ≤ b - e.mode.granule * k := hmod ▸ Nat.mod_le _ _
  omega

theorem le_portion (ha : e.Aligned a) (hs : a ≤ e.size) (hab : a ≤ b) : a ≤ e.portion b := by
  unfold portion
  split
  · exact hs
  · rcases ha with rfl | hd
    · omega
    · rw [← sub_mod_granule hd hab]
      exact Nat.le_add_right ..

/-- Enough has run to read a header, or all of the payload has, as soon as that much is there. -/
theorem portion_lt_iff :
    (e.portion a < Header.size ∧ e.portion a < e.size) ↔ a < min Header.size e.size := by
  unfold portion Header.size
  rcases e.mode.granule_eq with hg | hg <;> rw [hg] <;> split <;> omega

end Envelope

theorem Layer.done_add_runnable {l : Layer} {e : Envelope} {n : Nat} (hheader : l.header = e.header)
    (hmode : l.mode = e.mode) (hdone : e.Aligned l.done) (hle : l.done ≤ n)
    (hsize : l.done ≤ e.size) : l.done + l.runnable (l.start + n) = e.portion n := by
  have hlsize : l.size = e.size := congrArg Header.length hheader
  unfold Layer.runnable Layer.stop Layer.safeEnd Envelope.portion
  rw [hmode, hlsize]
  by_cases hn : e.size ≤ n
  · have hmin : min (l.start + n) (l.start + e.size) = l.start + e.size := by omega
    rw [if_pos hn, hmin, if_neg (Nat.lt_irrefl _)]
    omega
  · have hmin : min (l.start + n) (l.start + e.size) = l.start + n := by omega
    rw [if_neg hn, hmin, if_pos (by omega), Nat.add_sub_add_left]
    rcases hdone with hall | hd
    · omega
    · exact Envelope.sub_mod_granule hd hle

end SecureBoot
