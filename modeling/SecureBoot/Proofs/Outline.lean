import SecureBoot.Header.Parser
import SecureBoot.Proofs.Envelope
import SecureBoot.Session.Basic

/-!
What an image says, read off its bytes alone. Given what a session starts from (`Opening`), an image
has an outermost envelope or is refused (`Opening.outer`), and as soon as enough of its payload is
there it is settled whether another envelope lies inside (`Opening.settled`). `Opening.outline` is
both together and `Opening.strands` all that any operation is ever to be fed for the image.

An image comes in chunks, so what matters is that more of it never takes back what has been read:
`settled_append`, `outline_append_error` and `strands_append`.
-/

namespace SecureBoot

/-- What a session starts from. -/
structure Opening where
  board : Board
  ring : KeyRing
  source : ModeSource
  permitted : ModeSet
  dest : Bytes

/-- The envelopes of an image, outermost first, as far as they are known. -/
inductive Outline where
  /-- The payload might still turn out to begin with another header. -/
  | undecided (outer : Envelope)
  | single (outer : Envelope)
  | nested (outer inner : Envelope)
deriving DecidableEq, Repr

/-! ### Headers -/

namespace Header

theorem announced_take {b : Bytes} : Announced (b.take size) ↔ Announced b := by
  simp [Announced, List.take_take, size]

/-- Only the bytes that a header takes decide whether there is one. -/
theorem parse_take (b : Bytes) (limit : SizeLimit) :
    parse (b.take size) limit = parse b limit := by
  simp only [parse, announced_take, Block.ofStart?, List.take_take, Nat.min_self]

theorem parse_append {b : Bytes} (h : size ≤ b.length) (more : Bytes) (limit : SizeLimit) :
    parse (b ++ more) limit = parse b limit := by
  rw [← parse_take, List.take_append_of_le_length h, parse_take]

theorem length_of_parse {b : Bytes} {limit : SizeLimit} {h : Header}
    (hp : parse b limit = .ok (some h)) : size ≤ b.length ∧ h.length ≤ limit.bytes := by
  obtain ⟨-, hbytes, hfit⟩ := parse_eq_some_iff.mp hp
  have hlen := congrArg List.length hbytes
  rw [List.length_take, length_bytes_eq] at hlen
  exact ⟨by omega, hfit⟩

theorem eq_of_bytes_eq {h h' : Header} (hbytes : h.bytes = h'.bytes) : h = h' :=
  congrArg Header.mk (Block.ext hbytes)

/-- A field of a header is read where the bytes that begin with it have it. -/
theorem field_eq_slice {b : Bytes} {h : Header} (hbytes : b.take size = h.bytes) {start width : Nat}
    (hfit : start + width ≤ size) : h.field start width = slice b start width := by
  rw [Block.field, ← hbytes]
  apply List.ext_getElem?
  intro i
  rw [getElem?_slice, getElem?_slice, List.getElem?_take]
  split
  · rw [if_pos (by omega)]
  · rfl

end Header

/-! ### Payload -/

namespace Envelope

variable (ring : KeyRing) (e : Envelope)

/-- The payload of an outermost envelope, as far as the image goes. -/
def payload (image : Bytes) : Bytes := (image.drop Header.size).take e.size

/-- What comes behind a header inside the payload. -/
def inside (payload : Bytes) : Bytes := (e.output ring payload).drop Header.size

theorem length_payload_le (image : Bytes) : (e.payload image).length ≤ e.size :=
  List.length_take_le ..

/-- The payload is complete as soon as the image is long enough. -/
theorem size_le_length_payload_iff {image : Bytes} (h : Header.size ≤ image.length) :
    e.size ≤ (e.payload image).length ↔ Header.size + e.size ≤ image.length := by
  rw [payload, List.length_take, List.length_drop, Nat.le_min, Nat.le_sub_iff_add_le' h]
  exact and_iff_right (Nat.le_refl _)

/-- The payload grows by what the chunk brings of it. -/
theorem payload_append {image : Bytes} (h : Header.size ≤ image.length) (chunk : Bytes) :
    e.payload (image ++ chunk) =
      e.payload image ++ chunk.take (e.size - (e.payload image).length) := by
  unfold payload
  rw [List.drop_append_of_le_length h, List.take_append, List.length_take]
  congr 2
  omega

theorem payload_prefix (image chunk : Bytes) :
    e.payload image <+: e.payload (image ++ chunk) := by
  unfold payload
  rw [List.drop_append]
  exact List.prefix_take_iff.mpr
    ⟨(List.take_prefix ..).trans (List.prefix_append ..), List.length_take_le ..⟩

@[simp] theorem length_inside (payload : Bytes) :
    (e.inside ring payload).length = payload.length - Header.size := by
  simp [inside]

theorem output_append (a b : Bytes) :
    e.output ring (a ++ b) =
      e.output ring a ++ transformAll (e.jobs ring) a.length b := by
  rw [output, transformAll_append, Nat.zero_add]
  rfl

theorem inside_append {a : Bytes} (h : Header.size ≤ a.length) (b : Bytes) :
    e.inside ring (a ++ b) = e.inside ring a ++ transformAll (e.jobs ring) a.length b := by
  rw [inside, output_append, List.drop_append_of_le_length (by simpa using h)]
  rfl

theorem inside_prefix {a b : Bytes} (h : a <+: b) : e.inside ring a <+: e.inside ring b := by
  obtain ⟨c, rfl⟩ := h
  unfold inside
  rw [output_append, List.drop_append]
  exact List.prefix_append ..

end Envelope

namespace Outline

def outer : Outline → Envelope
  | .undecided e | .single e | .nested e _ => e

def envelopes : Outline → List Envelope
  | .undecided e | .single e => [e]
  | .nested e i => [e, i]

/-- The modes that remain permitted. -/
def permitted (all : ModeSet) : Outline → ModeSet
  | .undecided e | .single e => all.inside e.mode
  | .nested e i => (all.inside e.mode).inside i.mode

/-- The payload of the inner envelope, given that of the outer one. -/
def within (ring : KeyRing) (payload : Bytes) : Outline → Bytes
  | .undecided _ | .single _ => []
  | .nested e i => (e.inside ring payload).take i.size

/-- What the inner operations are to be fed for a payload. -/
def innerStrands (ring : KeyRing) (inner : Bytes) : Outline → List Strand
  | .undecided _ | .single _ => []
  | .nested _ i => i.strands ring inner

/-- What the operations are to be fed for an outer and an inner payload. -/
def strands (ring : KeyRing) (payload inner : Bytes) (outline : Outline) : List Strand :=
  outline.outer.strands ring payload ++ outline.innerStrands ring inner

end Outline

/-! ### Reading an image -/

namespace Opening

variable (o : Opening)

/-- The envelope of a header, if it may claim its mode and selects a key that exists. -/
def classify (permitted : ModeSet) (h : Header) : Except Error Envelope := do
  let mode ← resolve h.signingWord o.source permitted
  let e : Envelope := ⟨h, mode⟩
  if e.HasKey then return e else throw .invalid

/-- The outermost envelope of an image. -/
def outer (image : Bytes) : Except Error Envelope := do
  match ← Header.parse image (.capacity o.dest.length) with
  | none => throw .notFound
  | some h => o.classify o.permitted h

/-- Settles what is inside an envelope, once enough of its payload is there. -/
def settled (e : Envelope) (payload : Bytes) : Except Error Outline :=
  if payload.length < min Header.size e.size then
    return .undecided e
  else do
    match ← Header.parse (e.output o.ring payload) (.enclosing (e.size - Header.size)) with
    | none => return .single e
    | some h => return .nested e (← o.classify (o.permitted.inside e.mode) h)

def outline (image : Bytes) : Except Error Outline := do
  let e ← o.outer image
  o.settled e (e.payload image)

/-- The outline as far as it has been settled. -/
def known (e : Envelope) (payload : Bytes) : Outline :=
  match o.settled e payload with
  | .ok outline => outline
  | .error _ => .undecided e

/-- All that the operations are to be fed for an outermost payload. -/
def strandsOf (e : Envelope) (payload : Bytes) : List Strand :=
  let outline := o.known e payload
  outline.strands o.ring payload (outline.within o.ring payload)

/-- All that the operations are to be fed for an image. -/
def strands (image : Bytes) : List Strand :=
  match o.outer image with
  | .ok e => o.strandsOf e (e.payload image)
  | .error _ => []

variable {o}

theorem classify_eq_ok_iff {permitted : ModeSet} {h : Header} {e : Envelope} :
    o.classify permitted h = .ok e ↔
      resolve h.signingWord o.source permitted = .ok e.mode ∧ e.header = h ∧ e.HasKey := by
  unfold classify
  cases hr : resolve h.signingWord o.source permitted with
  | error err => simp [bind, Except.bind]
  | ok mode =>
    simp only [bind, Except.bind]
    by_cases hk : Envelope.HasKey ⟨h, mode⟩
    · rw [if_pos hk]
      constructor
      · rintro ⟨⟩
        exact ⟨rfl, rfl, hk⟩
      · rintro ⟨⟨⟩, rfl, -⟩
        rfl
    · rw [if_neg hk]
      constructor
      · rintro ⟨⟩
      · rintro ⟨⟨⟩, rfl, hkey⟩
        exact absurd hkey hk

theorem outer_eq_ok_iff {image : Bytes} {e : Envelope} :
    o.outer image = .ok e ↔
      Header.parse image (.capacity o.dest.length) = .ok (some e.header) ∧
        o.classify o.permitted e.header = .ok e := by
  unfold outer
  cases hp : Header.parse image (.capacity o.dest.length) with
  | error err => simp [bind, Except.bind]
  | ok found =>
    cases found with
    | none => simp [bind, Except.bind, throw, throwThe, MonadExceptOf.throw]
    | some h =>
      simp only [bind, Except.bind, Except.ok.injEq, Option.some.injEq]
      constructor
      · intro ha
        obtain rfl := (classify_eq_ok_iff.mp ha).2.1
        exact ⟨rfl, ha⟩
      · rintro ⟨rfl, ha⟩
        exact ha

theorem length_of_outer_eq_ok {image : Bytes} {e : Envelope} (h : o.outer image = .ok e) :
    Header.size ≤ image.length ∧ e.size ≤ o.dest.length :=
  Header.length_of_parse (outer_eq_ok_iff.mp h).1

/-! ### What is inside an envelope -/

section Settled

variable {e i : Envelope} {payload : Bytes} {outline : Outline}

theorem settled_of_short (h : payload.length < min Header.size e.size) :
    o.settled e payload = .ok (.undecided e) := if_pos h

theorem settled_of_long (h : ¬ payload.length < min Header.size e.size) :
    o.settled e payload =
      (match Header.parse (e.output o.ring payload) (.enclosing (e.size - Header.size)) with
      | .error err => .error err
      | .ok none => .ok (.single e)
      | .ok (some inner) =>
        (o.classify (o.permitted.inside e.mode) inner).map fun i => .nested e i) := by
  unfold settled
  rw [if_neg h]
  cases Header.parse (e.output o.ring payload) (.enclosing (e.size - Header.size)) with
  | error err => rfl
  | ok found =>
    cases found with
    | none => rfl
    | some inner =>
      simp only [bind, Except.bind]
      cases o.classify (o.permitted.inside e.mode) inner <;> rfl

theorem outer_of_settled (h : o.settled e payload = .ok outline) : outline.outer = e := by
  by_cases hshort : payload.length < min Header.size e.size
  · rw [settled_of_short hshort] at h
    cases h
    rfl
  · rw [settled_of_long hshort] at h
    split at h
    · cases h
    · cases h
      rfl
    · rename_i inner hp
      cases ha : o.classify (o.permitted.inside e.mode) inner <;> rw [ha] at h <;> cases h
      rfl

theorem settled_eq_undecided_iff :
    o.settled e payload = .ok (.undecided e) ↔ payload.length < min Header.size e.size := by
  refine ⟨fun h => ?_, settled_of_short⟩
  by_contra hlong
  rw [settled_of_long hlong] at h
  split at h
  · cases h
  · cases h
  · rename_i inner hp
    cases ha : o.classify (o.permitted.inside e.mode) inner <;> rw [ha] at h <;> cases h

theorem settled_eq_single_iff :
    o.settled e payload = .ok (.single e) ↔
      ¬ payload.length < min Header.size e.size ∧
      ¬ Header.Announced (e.output o.ring payload) := by
  by_cases hshort : payload.length < min Header.size e.size
  · rw [settled_of_short hshort]
    exact ⟨fun h => (by cases h), fun h => absurd hshort h.1⟩
  · have hnone : Header.parse (e.output o.ring payload) (.enclosing (e.size - Header.size)) =
        .ok none ↔ ¬ Header.Announced (e.output o.ring payload) := Header.parse_eq_none_iff
    rw [settled_of_long hshort, and_iff_right hshort, ← hnone]
    cases hp : Header.parse (e.output o.ring payload) (.enclosing (e.size - Header.size)) with
    | error err => exact ⟨nofun, nofun⟩
    | ok found =>
      cases found with
      | none => exact ⟨fun _ => rfl, fun _ => rfl⟩
      | some inner =>
        refine ⟨fun h => ?_, nofun⟩
        cases ha : o.classify (o.permitted.inside e.mode) inner <;> simp only [ha] at h <;> cases h

theorem settled_eq_nested_iff :
    o.settled e payload = .ok (.nested e i) ↔
      ¬ payload.length < min Header.size e.size ∧
      Header.parse (e.output o.ring payload) (.enclosing (e.size - Header.size)) =
        .ok (some i.header) ∧
      o.classify (o.permitted.inside e.mode) i.header = .ok i := by
  constructor
  · intro h
    have hlong : ¬ payload.length < min Header.size e.size := fun hshort => by
      rw [settled_of_short hshort] at h
      cases h
    rw [settled_of_long hlong] at h
    split at h
    · cases h
    · cases h
    · rename_i inner hp
      cases ha : o.classify (o.permitted.inside e.mode) inner <;> rw [ha] at h <;> cases h
      obtain rfl := (classify_eq_ok_iff.mp ha).2.1
      exact ⟨hlong, hp, ha⟩
  · rintro ⟨hlong, hp, ha⟩
    rw [settled_of_long hlong, hp]
    simp only [ha]
    rfl

/-- An inner envelope fits the payload around it. -/
theorem length_of_settled_nested (h : o.settled e payload = .ok (.nested e i))
    (hle : payload.length ≤ e.size) :
    Header.size ≤ payload.length ∧ Header.size + i.size ≤ e.size := by
  obtain ⟨hheader, hfit⟩ := Header.length_of_parse (settled_eq_nested_iff.mp h).2.1
  rw [Envelope.length_output] at hheader
  have hsize : i.size ≤ e.size - Header.size := hfit
  exact ⟨hheader, by omega⟩

/-- What has been settled stays so. -/
theorem settled_append {more : Bytes} (h : ¬ payload.length < min Header.size e.size)
    (hfit : (payload ++ more).length ≤ e.size) :
    o.settled e (payload ++ more) = o.settled e payload := by
  rw [List.length_append] at hfit
  have hlong : ¬ (payload ++ more).length < min Header.size e.size := by
    rw [List.length_append]
    omega
  rw [settled_of_long h, settled_of_long hlong]
  rcases Nat.lt_or_ge payload.length Header.size with hlt | hge
  · -- A payload too small for a header is settled only when it is complete.
    obtain rfl : more = [] := List.eq_nil_of_length_eq_zero (by omega)
    rw [List.append_nil]
  · rw [Envelope.output_append, Header.parse_append (by rwa [Envelope.length_output])]

end Settled

/-! ### More of an image -/

theorem outer_append {image : Bytes} (h : Header.size ≤ image.length) (more : Bytes) :
    o.outer (image ++ more) = o.outer image := by
  unfold outer
  rw [Header.parse_append h]

theorem settled_payload_append {e : Envelope} {image : Bytes} (h : Header.size ≤ image.length)
    (hlong : ¬ (e.payload image).length < min Header.size e.size) (chunk : Bytes) :
    o.settled e (e.payload (image ++ chunk)) = o.settled e (e.payload image) := by
  have hfit := e.length_payload_le (image ++ chunk)
  rw [e.payload_append h] at hfit ⊢
  exact settled_append hlong hfit

theorem outline_eq_ok_iff {image : Bytes} {outline : Outline} :
    o.outline image = .ok outline ↔
      o.outer image = .ok outline.outer ∧
        o.settled outline.outer (outline.outer.payload image) = .ok outline := by
  unfold Opening.outline
  cases hout : o.outer image with
  | error err => simp [bind, Except.bind]
  | ok e =>
    simp only [bind, Except.bind, Except.ok.injEq]
    constructor
    · intro h
      obtain rfl := outer_of_settled h
      exact ⟨rfl, h⟩
    · rintro ⟨rfl, h⟩
      exact h

theorem strands_of_outline {image : Bytes} {outline : Outline} (h : o.outline image = .ok outline) :
    o.strands image = outline.strands o.ring (outline.outer.payload image)
      (outline.within o.ring (outline.outer.payload image)) := by
  obtain ⟨houter, hsettled⟩ := outline_eq_ok_iff.mp h
  rw [strands, houter]
  simp only [strandsOf, known, hsettled]

theorem outline_of_outer {image : Bytes} {e : Envelope} (h : o.outer image = .ok e) :
    o.outline image = o.settled e (e.payload image) := by
  unfold Opening.outline
  rw [h]
  rfl

theorem outline_of_outer_error {image : Bytes} {err : Error} (h : o.outer image = .error err) :
    o.outline image = .error err := by
  unfold Opening.outline
  rw [h]
  rfl

/-- An image that has been refused stays refused, and for the same cause. -/
theorem outline_append_error {image : Bytes} {err : Error} (h : Header.size ≤ image.length)
    (he : o.outline image = .error err) (chunk : Bytes) :
    o.outline (image ++ chunk) = .error err := by
  unfold Opening.outline at he ⊢
  rw [outer_append h]
  cases hout : o.outer image with
  | error err' =>
    rw [hout] at he
    exact he
  | ok e =>
    rw [hout] at he
    simp only [bind, Except.bind] at he ⊢
    have hlong : ¬ (e.payload image).length < min Header.size e.size := fun hshort => by
      rw [settled_of_short hshort] at he
      cases he
    rw [settled_payload_append h hlong, he]

/-! ### Strands -/

section Strands

variable {e : Envelope}

theorem outer_known (e : Envelope) (payload : Bytes) : (o.known e payload).outer = e := by
  unfold known
  split
  · rename_i h
    exact outer_of_settled h
  · rfl

end Strands

end Opening

namespace Outline

variable (outline : Outline) (ring : KeyRing) {x x' y y' : Bytes}

theorem strands_undecided (e : Envelope) (payload inner : Bytes) :
    (undecided e).strands ring payload inner = e.strands ring payload := List.append_nil _

theorem strands_begin (hx : x <+: x') (y : Bytes) :
    Begins (outline.outer.strands ring x) (outline.strands ring x' y) :=
  (Begins.of_forall₂ (outline.outer.header.strands_prefix _ hx)).append_right _

theorem strands_grow (hx : x <+: x') (hy : y <+: y') :
    Begins (outline.strands ring x y) (outline.strands ring x' y') := by
  have hinner : List.Forall₂ Strand.Grows (outline.innerStrands ring y)
      (outline.innerStrands ring y') := by
    cases outline with
    | undecided e => exact .nil
    | single e => exact .nil
    | nested e i => exact i.header.strands_prefix _ hy
  exact .of_forall₂ (List.rel_append (outline.outer.header.strands_prefix _ hx) hinner)

theorem within_mono (hx : x <+: x') :
    outline.within ring x <+: outline.within ring x' := by
  cases outline with
  | undecided e => exact List.prefix_refl _
  | single e => exact List.prefix_refl _
  | nested e i =>
    exact List.prefix_take_iff.mpr
      ⟨(List.take_prefix ..).trans (e.inside_prefix ring hx), List.length_take_le ..⟩

end Outline

namespace Opening

variable {o : Opening} {e : Envelope}

/-- More payload adds to what is to be fed. -/
theorem strandsOf_begin {payload payload' : Bytes} (h : payload <+: payload')
    (hfit : payload'.length ≤ e.size) : Begins (o.strandsOf e payload) (o.strandsOf e payload') := by
  by_cases hk : o.known e payload = .undecided e
  · have hbegin := (o.known e payload').strands_begin o.ring h
      ((o.known e payload').within o.ring payload')
    rw [outer_known] at hbegin
    rw [strandsOf, hk, Outline.strands_undecided]
    exact hbegin
  · have hlong : ¬ payload.length < min Header.size e.size := fun hshort => by
      rw [known, settled_of_short hshort] at hk
      exact hk rfl
    obtain ⟨more, rfl⟩ := h
    have hk' : o.known e (payload ++ more) = o.known e payload := by
      rw [known, settled_append hlong hfit, known]
    rw [strandsOf, strandsOf, hk']
    exact (o.known e payload).strands_grow o.ring (List.prefix_append ..)
      ((o.known e payload).within_mono o.ring (List.prefix_append ..))

theorem strands_begin {image : Bytes} (h : o.outer image = .ok e) {payload : Bytes}
    (hpayload : payload <+: e.payload image) : Begins (e.strands o.ring payload) (o.strands image) := by
  have hbegin := (o.known e (e.payload image)).strands_begin o.ring hpayload
    ((o.known e (e.payload image)).within o.ring (e.payload image))
  rw [outer_known] at hbegin
  rw [strands, h]
  exact hbegin

/-- More of an image adds to what is to be fed. -/
theorem strands_append (image chunk : Bytes) :
    Begins (o.strands image) (o.strands (image ++ chunk)) := by
  cases hout : o.outer image with
  | error err =>
    rw [strands, hout]
    exact .nil _
  | ok e =>
    have hlen := (length_of_outer_eq_ok hout).1
    have hout' : o.outer (image ++ chunk) = .ok e := (outer_append hlen chunk).trans hout
    rw [strands, strands, hout, hout']
    exact strandsOf_begin (e.payload_prefix image chunk) (e.length_payload_le _)

end Opening

end SecureBoot
