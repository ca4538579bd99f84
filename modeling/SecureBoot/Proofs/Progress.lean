import SecureBoot.Proofs.Outline

/-!
How far the treatment of an image has come, as data: the envelopes known so far, the payload taken
up, and how much of it has run through the outer and through the inner operations. All that a session
holds follows from it: what its destination contains (`Progress.buffer`), what its operations have
been fed (`Progress.strands`) and how much of the destination is output (`Progress.safe`).

Treating an image is a few moves on this data: payload is taken up (`Progress.take`), operations are
run (`runOuter`, `runInner`) and the inside is settled (`settle`). Whatever the chunks were, the
moves end in the same place, which depends on the outline and the payload alone
(`Progress.reached`).
-/

namespace SecureBoot

section Bytes

variable {a x y c : Bytes}

theorem slice_append (a x c : Bytes) : slice (a ++ x ++ c) a.length x.length = x := by
  rw [slice, List.append_assoc, List.drop_left, List.take_left]

/-- Writing over the middle of three parts. -/
theorem overwrite_append (h : y.length = x.length) :
    overwrite (a ++ x ++ c) a.length y = a ++ y ++ c := by
  have hdrop : (a ++ x ++ c).drop (a.length + y.length) = c := by
    rw [h, ← List.length_append, List.drop_left]
  have htake : y.take ((a ++ x ++ c).length - a.length) = y :=
    List.take_of_length_le (by simp only [List.length_append]; omega)
  have hfront : (a ++ x ++ c).take a.length = a := by
    rw [List.append_assoc, List.take_left]
  rw [overwrite, hdrop, htake, hfront]

end Bytes

structure Progress where
  outline : Outline
  /-- The outer payload that has been taken up. -/
  raw : Bytes
  /-- Bytes of it that have run through the outer operations. -/
  outerDone : Nat
  /-- Bytes of the inner payload that have run through the inner operations. -/
  innerDone : Nat
deriving DecidableEq, Repr

namespace Progress

/-! ### What follows from it -/

section Views

variable (ring : KeyRing) (p : Progress)

/-- The payload that has run through the outer operations. -/
def outerInput : Bytes := p.raw.take p.outerDone

/-- What the outer operations have made available behind an inner header. -/
def inside : Bytes := p.outline.outer.inside ring p.outerInput

/-- The payload that has run through the inner operations. -/
def innerInput : Bytes := (p.inside ring).take p.innerDone

/-- What the operations have been fed. -/
def strands : List Strand := p.outline.strands ring p.outerInput (p.innerInput ring)

/-- The payload as it stands, up to where the outer operations have run. -/
def front : Bytes :=
  match p.outline with
  | .undecided e | .single e => e.output ring p.outerInput
  | .nested e i =>
    (e.output ring p.outerInput).take Header.size ++ i.output ring (p.innerInput ring)
      ++ (p.inside ring).drop p.innerDone

/-- The destination, given what it held in the beginning. -/
def buffer (dest : Bytes) : Bytes :=
  p.front ring ++ p.raw.drop p.outerDone ++ dest.drop p.raw.length

/-- How much of the destination is output. -/
def safe : Nat :=
  match p.outline with
  | .undecided _ => 0
  | .single _ => p.outerDone
  | .nested _ i =>
    if p.innerDone < i.size then min p.outerDone (Header.size + p.innerDone) else p.outerDone

end Views

/-! ### Moves -/

section Moves

variable (ring : KeyRing) (p : Progress)

def take (more : Bytes) : Progress := { p with raw := p.raw ++ more }

def runOuter : Progress := { p with outerDone := p.outline.outer.portion p.raw.length }

/-- The payload on which `runOuter` runs the outer operations. -/
def outerNext : Bytes := slice p.raw p.outerDone (p.runOuter.outerDone - p.outerDone)

def settle (outline : Outline) : Progress := { p with outline := outline }

def runInner : Progress :=
  { p with innerDone :=
      match p.outline with
      | .undecided _ | .single _ => 0
      | .nested _ i => i.portion (p.outerDone - Header.size) }

/-- The payload on which `runInner` runs the inner operations. -/
def innerNext : Bytes := slice (p.inside ring) p.innerDone (p.runInner.innerDone - p.innerDone)

/-- Where the treatment of some payload ends up. -/
def reached (outline : Outline) (raw : Bytes) : Progress :=
  (Progress.mk outline raw 0 0).runOuter.runInner

end Moves

/-! ### What a session keeps to -/

/-- The numbers are in order, and the outline is right if it is settled. -/
structure Sound (o : Opening) (p : Progress) : Prop where
  outerDone_le : p.outerDone ≤ p.raw.length
  raw_le : p.raw.length ≤ p.outline.outer.size
  size_le : p.outline.outer.size ≤ o.dest.length
  aligned : p.outline.outer.Aligned p.outerDone
  settled : p.outline = .undecided p.outline.outer ∨
    o.settled p.outline.outer p.raw = .ok p.outline
  inner :
    match p.outline with
    | .undecided _ | .single _ => p.innerDone = 0
    | .nested _ i =>
      i.Aligned p.innerDone ∧ p.innerDone ≤ i.size ∧ Header.size + p.innerDone ≤ p.outerDone

namespace Sound

variable {o : Opening} {p : Progress}

theorem outerDone_le_runOuter (h : p.Sound o) : p.outerDone ≤ p.runOuter.outerDone :=
  Envelope.le_portion h.aligned (Nat.le_trans h.outerDone_le h.raw_le) h.outerDone_le

theorem take (h : p.Sound o) {more : Bytes}
    (hfit : p.raw.length + more.length ≤ p.outline.outer.size) : (p.take more).Sound o where
  outerDone_le := by
    rw [Progress.take, List.length_append]
    exact Nat.le_trans h.outerDone_le (Nat.le_add_right ..)
  raw_le := by rwa [Progress.take, List.length_append]
  size_le := h.size_le
  aligned := h.aligned
  settled := by
    rcases h.settled with hs | hs
    · exact .inl hs
    · by_cases hshort : p.raw.length < min Header.size p.outline.outer.size
      · rw [Opening.settled_of_short hshort] at hs
        exact .inl (Except.ok.inj hs).symm
      · exact .inr ((Opening.settled_append hshort (by rwa [List.length_append])).trans hs)
  inner := h.inner

theorem runOuter (h : p.Sound o) : p.runOuter.Sound o where
  outerDone_le := Envelope.portion_le
  raw_le := h.raw_le
  size_le := h.size_le
  aligned := Envelope.aligned_portion _
  settled := h.settled
  inner := by
    have hle := h.outerDone_le_runOuter
    have hinner := h.inner
    rcases p with ⟨_ | _ | ⟨e, i⟩, raw, outerDone, innerDone⟩
    · exact hinner
    · exact hinner
    · exact ⟨hinner.1, hinner.2.1, Nat.le_trans hinner.2.2 hle⟩

theorem settle (h : p.Sound o) {outline : Outline} (hran : p.runOuter = p)
    (hun : p.outline = .undecided p.outline.outer)
    (hs : o.settled p.outline.outer p.raw = .ok outline) : (p.settle outline).Sound o := by
  have hout := Opening.outer_of_settled hs
  have hinner := h.inner
  rw [hun] at hinner
  refine
    { outerDone_le := h.outerDone_le
      raw_le := hout ▸ h.raw_le
      size_le := hout ▸ h.size_le
      aligned := hout ▸ h.aligned
      settled := .inr (hout ▸ hs)
      inner := ?_ }
  cases outline with
  | undecided e => exact hinner
  | single e => exact hinner
  | nested e i =>
    -- The inner header has run through the outer operations, since it has been read.
    have hdone : p.outline.outer.portion p.raw.length = p.outerDone :=
      congrArg Progress.outerDone hran
    obtain rfl : e = p.outline.outer := hout
    obtain ⟨hraw, hsize⟩ := Opening.length_of_settled_nested hs h.raw_le
    have hheader := Envelope.le_portion p.outline.outer.aligned_header (by omega) hraw
    have hzero : p.innerDone = 0 := hinner
    refine ⟨?_, ?_, ?_⟩
    · exact hzero ▸ Envelope.aligned_zero
    · exact hzero ▸ Nat.zero_le _
    · change Header.size + p.innerDone ≤ p.outerDone
      omega

theorem runInner (h : p.Sound o) : p.runInner.Sound o where
  outerDone_le := h.outerDone_le
  raw_le := h.raw_le
  size_le := h.size_le
  aligned := h.aligned
  settled := h.settled
  inner := by
    have hinner := h.inner
    rcases p with ⟨_ | _ | ⟨e, i⟩, raw, outerDone, innerDone⟩
    · rfl
    · rfl
    · have hle := i.portion_le (a := outerDone - Header.size)
      refine ⟨Envelope.aligned_portion _, Envelope.portion_le_size, ?_⟩
      have hheader := hinner.2.2
      simp only [Progress.runInner] at hheader hle ⊢
      omega

/-- Without an inner envelope nothing is left to run. -/
theorem runInner_eq (h : p.Sound o) (hout : ∀ e i, p.outline ≠ .nested e i) : p.runInner = p := by
  have hinner := h.inner
  rcases p with ⟨_ | _ | ⟨e, i⟩, raw, outerDone, innerDone⟩
  · obtain rfl : innerDone = 0 := hinner
    rfl
  · obtain rfl : innerDone = 0 := hinner
    rfl
  · exact absurd rfl (hout e i)

theorem innerDone_le_runInner (h : p.Sound o) : p.innerDone ≤ p.runInner.innerDone := by
  have hinner := h.inner
  rcases p with ⟨_ | _ | ⟨e, i⟩, raw, outerDone, innerDone⟩
  · exact Nat.le_of_eq hinner
  · exact Nat.le_of_eq hinner
  · exact Envelope.le_portion hinner.1 hinner.2.1 (Nat.le_sub_of_add_le' hinner.2.2)

/-! ### Lengths -/

theorem length_outerInput (h : p.Sound o) : p.outerInput.length = p.outerDone := by
  rw [outerInput, List.length_take]
  exact Nat.min_eq_left h.outerDone_le

theorem length_outerNext (h : p.Sound o) :
    p.outerDone + p.outerNext.length = p.runOuter.outerDone := by
  have hle := h.outerDone_le_runOuter
  have hraw := h.runOuter.outerDone_le
  have hsame : p.runOuter.raw = p.raw := rfl
  rw [hsame] at hraw
  rw [outerNext, length_slice]
  omega

theorem length_innerInput (h : p.Sound o) (ring : KeyRing) :
    (p.innerInput ring).length = p.innerDone := by
  have hinner := h.inner
  have hlen := h.length_outerInput
  rw [innerInput, List.length_take, inside, Envelope.length_inside, hlen]
  rcases p with ⟨_ | _ | ⟨e, i⟩, raw, outerDone, innerDone⟩
  · simp only [] at hinner ⊢
    omega
  · simp only [] at hinner ⊢
    omega
  · simp only [] at hinner ⊢
    omega

theorem length_front (h : p.Sound o) (ring : KeyRing) :
    (p.front ring).length = p.outerDone := by
  have hinner := h.inner
  have hlen := h.length_outerInput
  have hinput := h.length_innerInput ring
  rcases p with ⟨_ | _ | ⟨e, i⟩, raw, outerDone, innerDone⟩
  · simpa [front] using hlen
  · simpa [front] using hlen
  · simp only [front, List.length_append, List.length_take, List.length_drop,
      Envelope.length_output, inside, Envelope.length_inside, hinput, hlen]
    simp only [] at hinner
    omega

theorem length_innerNext (h : p.Sound o) (ring : KeyRing) :
    p.innerDone + (p.innerNext ring).length = p.runInner.innerDone := by
  have hle := h.innerDone_le_runInner
  have hinner := h.runInner.inner
  have hlen := h.length_outerInput
  rw [innerNext, length_slice, inside, Envelope.length_inside, hlen]
  rcases p with ⟨_ | _ | ⟨e, i⟩, raw, outerDone, innerDone⟩
  · simp only [Progress.runInner] at hle ⊢
    omega
  · simp only [Progress.runInner] at hle ⊢
    omega
  · simp only [Progress.runInner] at hle hinner ⊢
    omega

/-! ### What the moves do to the inputs and to the destination -/

theorem outerInput_runOuter (h : p.Sound o) :
    p.runOuter.outerInput = p.outerInput ++ p.outerNext := by
  have hle := h.outerDone_le_runOuter
  have hsame : p.runOuter.raw = p.raw := rfl
  rw [outerInput, outerInput, outerNext, slice, hsame, ← List.take_add, Nat.add_sub_cancel' hle]

theorem innerInput_runInner (h : p.Sound o) (ring : KeyRing) :
    p.runInner.innerInput ring = p.innerInput ring ++ p.innerNext ring := by
  have hle := h.innerDone_le_runInner
  have hsame : p.runInner.inside ring = p.inside ring := rfl
  rw [innerInput, innerInput, innerNext, slice, hsame, ← List.take_add, Nat.add_sub_cancel' hle]

/-- Running the outer operations adds to what there is behind an inner header. -/
theorem inside_runOuter {e i : Envelope} (h : p.Sound o) (hout : p.outline = .nested e i)
    (ring : KeyRing) :
    p.runOuter.inside ring =
      p.inside ring ++ transformAll (e.jobs ring) p.outerDone p.outerNext := by
  have hheader : Header.size ≤ p.outerInput.length := by
    have hinner := h.inner
    rw [hout] at hinner
    rw [h.length_outerInput]
    exact Nat.le_trans (Nat.le_add_right ..) hinner.2.2
  have hsame : p.runOuter.outline = p.outline := rfl
  rw [inside, inside, h.outerInput_runOuter, hsame, Envelope.inside_append _ _ hheader,
    h.length_outerInput, hout]
  rfl

theorem innerInput_runOuter (h : p.Sound o) (ring : KeyRing) :
    p.runOuter.innerInput ring = p.innerInput ring := by
  have hinner := h.inner
  have hlen := h.length_outerInput
  cases hout : p.outline with
  | undecided e =>
    rw [hout] at hinner
    have hzero : p.innerDone = 0 := hinner
    have hzero' : p.runOuter.innerDone = 0 := hinner
    rw [innerInput, innerInput, hzero, hzero', List.take_zero, List.take_zero]
  | single e =>
    rw [hout] at hinner
    have hzero : p.innerDone = 0 := hinner
    have hzero' : p.runOuter.innerDone = 0 := hinner
    rw [innerInput, innerInput, hzero, hzero', List.take_zero, List.take_zero]
  | nested e i =>
    rw [hout] at hinner
    have hsame : p.runOuter.innerDone = p.innerDone := rfl
    rw [innerInput, h.inside_runOuter hout, hsame, List.take_append_of_le_length, innerInput]
    rw [inside, Envelope.length_inside, hlen]
    exact Nat.le_sub_of_add_le' hinner.2.2

theorem front_runOuter (h : p.Sound o) (ring : KeyRing) :
    p.runOuter.front ring =
      p.front ring ++ transformAll (p.outline.outer.jobs ring) p.outerDone p.outerNext := by
  have hlen := h.length_outerInput
  have houter := h.outerInput_runOuter
  have hinner := h.innerInput_runOuter ring
  have hsound := h.inner
  cases hout : p.outline with
  | undecided e =>
    have hout' : p.runOuter.outline = .undecided e := hout
    simp only [front, hout, hout', Outline.outer]
    rw [houter, Envelope.output_append, hlen]
  | single e =>
    have hout' : p.runOuter.outline = .single e := hout
    simp only [front, hout, hout', Outline.outer]
    rw [houter, Envelope.output_append, hlen]
  | nested e i =>
    have hout' : p.runOuter.outline = .nested e i := hout
    have hsame : p.runOuter.innerDone = p.innerDone := rfl
    rw [hout] at hsound
    have hheader : Header.size ≤ (e.output ring p.outerInput).length := by
      rw [Envelope.length_output, hlen]
      exact Nat.le_trans (Nat.le_add_right ..) hsound.2.2
    have hinside : p.innerDone ≤ (p.inside ring).length := by
      rw [inside, Envelope.length_inside, hlen]
      exact Nat.le_sub_of_add_le' hsound.2.2
    simp only [front, hout, hout', Outline.outer]
    rw [hinner, h.inside_runOuter hout, hsame, houter, Envelope.output_append, hlen,
      List.take_append_of_le_length hheader, List.drop_append_of_le_length hinside]
    simp only [List.append_assoc]

/-- Taking up payload runs nothing. -/
theorem outerInput_take (h : p.Sound o) (more : Bytes) :
    (p.take more).outerInput = p.outerInput := List.take_append_of_le_length h.outerDone_le

theorem innerInput_take (h : p.Sound o) (more : Bytes) (ring : KeyRing) :
    (p.take more).innerInput ring = p.innerInput ring := by
  simp only [innerInput, inside, h.outerInput_take]
  rfl

/-- Taking up payload writes it behind what has been taken up before. -/
theorem buffer_take (h : p.Sound o) (ring : KeyRing) {more : Bytes}
    (hfit : p.raw.length + more.length ≤ o.dest.length) :
    overwrite (p.buffer ring o.dest) p.raw.length more = (p.take more).buffer ring o.dest := by
  have hfront : (p.front ring ++ p.raw.drop p.outerDone).length = p.raw.length := by
    rw [List.length_append, h.length_front, List.length_drop, Nat.add_sub_cancel' h.outerDone_le]
  have houter := h.outerInput_take more
  have hsame : (p.take more).front ring = p.front ring := by
    simp only [front, inside, innerInput, houter]
    rfl
  have hdrop : (p.take more).raw.drop (p.take more).outerDone = p.raw.drop p.outerDone ++ more :=
    List.drop_append_of_le_length h.outerDone_le
  have hlen : (p.take more).raw.length = p.raw.length + more.length := List.length_append
  have hcut : o.dest.drop p.raw.length =
      slice o.dest p.raw.length more.length ++ o.dest.drop (p.raw.length + more.length) := by
    rw [slice, ← List.drop_drop, List.take_append_drop]
  rw [buffer, buffer, hsame, hdrop, hlen, hcut, ← List.append_assoc, ← hfront,
    overwrite_append (by rw [length_slice]; omega)]
  simp only [List.append_assoc]

/-- Running the outer operations replaces a piece of the destination. -/
theorem buffer_runOuter (h : p.Sound o) (ring : KeyRing) (dest : Bytes) :
    ∃ a c, a.length = p.outerDone ∧ p.buffer ring dest = a ++ p.outerNext ++ c ∧
      p.runOuter.buffer ring dest =
        a ++ transformAll (p.outline.outer.jobs ring) p.outerDone p.outerNext ++ c := by
  have hsplit : p.raw.drop p.outerDone = p.outerNext ++ p.raw.drop p.runOuter.outerDone := by
    have hle := h.outerDone_le_runOuter
    have hdrop : p.raw.drop p.runOuter.outerDone =
        (p.raw.drop p.outerDone).drop (p.runOuter.outerDone - p.outerDone) := by
      rw [List.drop_drop, Nat.add_sub_cancel' hle]
    rw [outerNext, slice, hdrop, List.take_append_drop]
  refine ⟨p.front ring, p.raw.drop p.runOuter.outerDone ++ dest.drop p.raw.length,
    h.length_front ring, ?_, ?_⟩
  · rw [buffer, hsplit]
    simp only [List.append_assoc]
  · rw [buffer, h.front_runOuter]
    have hsame : p.runOuter.raw = p.raw := rfl
    simp only [List.append_assoc, hsame]

/-- Running the inner operations replaces a piece of the destination. -/
theorem buffer_runInner {e i : Envelope} (h : p.Sound o) (hout : p.outline = .nested e i)
    (ring : KeyRing) (dest : Bytes) :
    ∃ a c, a.length = Header.size + p.innerDone ∧ p.buffer ring dest = a ++ p.innerNext ring ++ c ∧
      p.runInner.buffer ring dest =
        a ++ transformAll (i.jobs ring) p.innerDone (p.innerNext ring) ++ c := by
  have hinner := h.inner
  have hinput := h.length_innerInput ring
  have hout' : p.runInner.outline = .nested e i := hout
  have hsame : p.runInner.inside ring = p.inside ring := rfl
  have hsplit : (p.inside ring).drop p.innerDone =
      p.innerNext ring ++ (p.inside ring).drop p.runInner.innerDone := by
    have hle := h.innerDone_le_runInner
    have hdrop : (p.inside ring).drop p.runInner.innerDone =
        ((p.inside ring).drop p.innerDone).drop (p.runInner.innerDone - p.innerDone) := by
      rw [List.drop_drop, Nat.add_sub_cancel' hle]
    rw [innerNext, slice, hdrop, List.take_append_drop]
  refine ⟨(e.output ring p.outerInput).take Header.size ++ i.output ring (p.innerInput ring),
    (p.inside ring).drop p.runInner.innerDone ++ p.raw.drop p.outerDone ++
      dest.drop p.raw.length, ?_, ?_, ?_⟩
  · rw [hout] at hinner
    rw [List.length_append, List.length_take, Envelope.length_output, Envelope.length_output,
      hinput, h.length_outerInput]
    have hheader := Nat.le_trans (Nat.le_add_right ..) hinner.2.2
    rw [Nat.min_eq_left hheader]
  · simp only [buffer, front, hout]
    rw [hsplit]
    simp only [List.append_assoc]
  · simp only [buffer, front, hout']
    rw [hsame, h.innerInput_runInner, Envelope.output_append, hinput]
    have hraw : p.runInner.raw = p.raw := rfl
    have hdone : p.runInner.outerDone = p.outerDone := rfl
    have houter : p.runInner.outerInput = p.outerInput := rfl
    simp only [List.append_assoc, hraw, hdone, houter]

/-! ### What there is to feed -/

/-- What has been fed is a beginning of what the payload taken up gives to feed. -/
theorem strands_begin (h : p.Sound o) :
    Begins (p.strands o.ring) (o.strandsOf p.outline.outer p.raw) := by
  have houter : p.outerInput <+: p.raw := List.take_prefix ..
  rcases h.settled with hun | hs
  · have hstrands : p.strands o.ring = p.outline.outer.strands o.ring p.outerInput := by
      rw [strands, hun, Outline.strands_undecided]
      rfl
    have hbegin := (o.known p.outline.outer p.raw).strands_begin o.ring houter
      ((o.known p.outline.outer p.raw).within o.ring p.raw)
    rw [Opening.outer_known] at hbegin
    rw [hstrands]
    exact hbegin
  · have hk : o.known p.outline.outer p.raw = p.outline := by rw [Opening.known, hs]
    have hwithin : p.innerInput o.ring <+: p.outline.within o.ring p.raw := by
      have hinner := h.inner
      rcases p with ⟨_ | _ | ⟨e, i⟩, raw, outerDone, innerDone⟩
      · obtain rfl : innerDone = 0 := hinner
        exact List.nil_prefix
      · obtain rfl : innerDone = 0 := hinner
        exact List.nil_prefix
      · refine List.prefix_take_iff.mpr ⟨?_, ?_⟩
        · exact (List.take_prefix ..).trans (e.inside_prefix o.ring houter)
        · rw [h.length_innerInput]
          exact hinner.2.1
    rw [Opening.strandsOf, hk]
    exact p.outline.strands_grow o.ring houter hwithin

end Sound

/-! ### Settling -/

theorem Sound.innerDone_eq_zero {o : Opening} {p : Progress} {e : Envelope} (h : p.Sound o)
    (hout : p.outline = .undecided e) : p.innerDone = 0 := by
  have hinner := h.inner
  rw [hout] at hinner
  exact hinner

theorem Sound.settle_same {o : Opening} {p : Progress} {outline : Outline} (h : p.Sound o)
    (hout : p.outline = outline) : (p.settle outline).Sound o := by
  subst hout
  exact h

/-- What can be read of the start of the payload, once it is to be settled what is inside. -/
theorem Sound.parse_front {o : Opening} {p : Progress} {e : Envelope} (h : p.Sound o)
    (hout : p.outline = .undecided e) (hlong : ¬ (p.outerDone < Header.size ∧ p.outerDone < e.size))
    (limit : SizeLimit) :
    Header.parse (slice (p.buffer o.ring o.dest) 0 (min p.outerDone Header.size)) limit =
      Header.parse (e.output o.ring p.raw) limit := by
  have hfront : p.front o.ring = (e.output o.ring p.raw).take p.outerDone := by
    simp only [front, hout, outerInput, Envelope.output_take]
  have hlen := h.length_front o.ring
  have hle := h.outerDone_le
  have hraw := h.raw_le
  rw [hout] at hraw
  have hcut : slice (p.buffer o.ring o.dest) 0 (min p.outerDone Header.size) =
      (e.output o.ring p.raw).take (min p.outerDone Header.size) := by
    rw [slice, List.drop_zero, buffer, List.append_assoc, List.take_append_of_le_length, hfront,
      List.take_take, Nat.min_eq_left (Nat.min_le_left ..)]
    rw [hlen]
    exact Nat.min_le_left ..
  rw [hcut, ← Header.parse_take (e.output o.ring p.raw)]
  rcases Nat.lt_or_ge p.outerDone Header.size with hlt | hge
  · -- A payload too small for a header is there as a whole.
    have hall : (e.output o.ring p.raw).length ≤ p.outerDone := by
      have hsize : ¬ p.outerDone < e.size := fun hlt' => hlong ⟨hlt, hlt'⟩
      rw [Envelope.length_output]
      exact Nat.le_trans hraw (Nat.not_lt.mp hsize)
    rw [Nat.min_eq_left (Nat.le_of_lt hlt), List.take_of_length_le hall,
      List.take_of_length_le (Nat.le_trans hall (Nat.le_of_lt hlt))]
  · rw [Nat.min_eq_right hge]

section Settle

variable (ring : KeyRing) {p : Progress} {e i : Envelope}

/-- Settling that there is no inner header changes nothing that is there. -/
theorem buffer_settle_single (h : p.outline = .undecided e) (dest : Bytes) :
    (p.settle (.single e)).buffer ring dest = p.buffer ring dest := by
  simp only [buffer, front, h]
  rfl

theorem innerInput_settle (p : Progress) (outline : Outline) (hzero : p.innerDone = 0) :
    (p.settle outline).innerInput ring = [] := by
  simp only [innerInput, settle, hzero, List.take_zero]

/-- An inner header that has been found has its operations still to be fed. -/
theorem strands_settle_nested (h : p.outline = .undecided e) (hzero : p.innerDone = 0) :
    (p.settle (.nested e i)).strands ring = p.strands ring ++ i.strands ring [] := by
  rw [strands, innerInput_settle ring p _ hzero, strands, h, Outline.strands_undecided]
  rfl

/-- And it has them still to run. -/
theorem buffer_settle_nested (h : p.outline = .undecided e) (hzero : p.innerDone = 0)
    (dest : Bytes) : (p.settle (.nested e i)).buffer ring dest = p.buffer ring dest := by
  have hinput := innerInput_settle ring p (.nested e i) hzero
  have hfront : (p.settle (.nested e i)).front ring = p.front ring := by
    have hempty : i.output ring [] = [] := List.eq_nil_of_length_eq_zero (by simp)
    simp only [front, h]
    rw [show (p.settle (.nested e i)).outline = .nested e i from rfl]
    simp only [hinput, hempty, List.append_nil]
    simp only [settle, hzero, List.drop_zero, inside, Outline.outer, Envelope.inside]
    exact List.take_append_drop ..
  rw [buffer, buffer, hfront]
  rfl

/-- Running everything there is, from wherever, ends where one run would. -/
theorem runInner_settle_runOuter {p : Progress} {outline : Outline}
    (h : outline.outer = p.outline.outer) :
    (p.runOuter.settle outline).runInner = reached outline p.raw := by
  simp only [reached, runOuter, settle, runInner, h]

end Settle

/-! ### Output -/

section Safe

variable {o : Opening} {p : Progress}

theorem safe_le (p : Progress) : p.safe ≤ p.outerDone := by
  rcases p with ⟨_ | _ | ⟨e, i⟩, raw, outerDone, innerDone⟩
  · exact Nat.zero_le _
  · exact Nat.le_refl _
  · simp only [safe]
    split
    · exact Nat.min_le_left ..
    · exact Nat.le_refl _

/-- Nothing that has become output is taken back. -/
theorem safe_mono {q : Progress} (hout : p.outline = q.outline)
    (houter : p.outerDone ≤ q.outerDone) (hinner : p.innerDone ≤ q.innerDone) :
    p.safe ≤ q.safe := by
  rcases p with ⟨_ | _ | ⟨e, i⟩, raw, outerDone, innerDone⟩
  · exact Nat.zero_le _
  · rcases q with ⟨outline, raw', outerDone', innerDone'⟩
    cases hout
    exact houter
  · rcases q with ⟨outline, raw', outerDone', innerDone'⟩
    cases hout
    simp only [safe] at houter hinner ⊢
    split <;> split <;> omega

end Safe

/-- Nothing of an envelope that has just been found has been run. -/
theorem sound_of_outer {o : Opening} {image : Bytes} {e : Envelope} (h : o.outer image = .ok e) :
    (⟨.undecided e, [], 0, 0⟩ : Progress).Sound o where
  outerDone_le := Nat.le_refl _
  raw_le := Nat.zero_le _
  size_le := (Opening.length_of_outer_eq_ok h).2
  aligned := Envelope.aligned_zero
  settled := .inl rfl
  inner := rfl

end Progress

end SecureBoot
