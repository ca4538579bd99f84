import SecureBoot.Proofs.Counter
import SecureBoot.Proofs.Defects

/-!
The search for a header. `Header.Finds` says what it comes to, with one case for each answer and in terms
of the bytes alone: whether they begin with a magic, how many there are, and which number their length
word holds. The cases exclude each other and leave nothing out, so they settle the search
(`Header.parse_eq_iff_finds`).
-/

namespace SecureBoot.Header

variable {b : Bytes} {limit limit' : SizeLimit}

/-- The number in the length word of a header at the start of the bytes. -/
def lengthWord (b : Bytes) : Nat := ofLE (slice b 280 4)

theorem length_eq_lengthWord {h : Header} (hbytes : b.take size = h.bytes) :
    h.length = lengthWord b := by
  have hfield : h.field Field.length.start 4 = slice b 280 4 := field_eq_slice hbytes (by decide)
  have hlt : lengthWord b < 4294967296 :=
    ofLE_lt_of_length_le (Nat.le_trans (Nat.le_of_eq (length_slice b 280 4)) (Nat.min_le_left ..))
  rw [length, Block.word, hfield]
  exact UInt32.toNat_ofNat_of_lt hlt

/-- A magic takes four bytes. -/
theorem Announced.length_le (ha : Announced b) : 4 ≤ b.length := by
  have hlength : (b.take 4).length = 4 := by
    rcases ha with hgshv | hnvda
    · rw [hgshv]
      rfl
    · rw [hnvda]
      rfl
  rw [List.length_take] at hlength
  omega

theorem not_announced_iff :
    ¬ Announced b ↔ b.length < 4 ∨ b.take 4 ≠ gshvMagic ∧ b.take 4 ≠ nvdaMagic := by
  rw [← not_or]
  constructor
  · exact .inr
  · rintro (hshort | hneither) ha
    · exact absurd ha.length_le (Nat.not_le_of_lt hshort)
    · exact hneither ha

/-- The bytes that a header at the start of others takes. -/
def ofStart (b : Bytes) (hwhole : 400 ≤ b.length) : Header := ⟨b.take 400, List.length_take_of_le hwhole⟩

/-- What the search for a header at the start of the bytes comes to, under a limit. -/
inductive Finds (b : Bytes) : SizeLimit → Except Error (Option Header) → Prop where
  /-- There is none, which is no error, however few bytes there are. -/
  | nothing {limit : SizeLimit}
      (h : b.length < 4 ∨ b.take 4 ≠ gshvMagic ∧ b.take 4 ≠ nvdaMagic) : Finds b limit (.ok none)
  /-- The bytes end before the header does, whatever the limit. -/
  | truncated {limit : SizeLimit} (ha : Announced b) (h : b.length < 400) :
      Finds b limit (.error .invalid)
  | overflow {capacity : Nat} (ha : Announced b) (hwhole : 400 ≤ b.length)
      (h : capacity < lengthWord b) : Finds b (.capacity capacity) (.error .overflow)
  | unfit {room : Nat} (ha : Announced b) (hwhole : 400 ≤ b.length) (h : room < lengthWord b) :
      Finds b (.enclosing room) (.error .invalid)
  | header {limit : SizeLimit} {h : Header} (ha : Announced b) (hwhole : 400 ≤ b.length)
      (hfit : lengthWord b ≤ limit.bytes) (hbytes : h.bytes = b.take 400) :
      Finds b limit (.ok (some h))

/-- The search comes to something. -/
theorem exists_finds (b : Bytes) (limit : SizeLimit) : ∃ r, Finds b limit r := by
  by_cases ha : Announced b
  · by_cases hwhole : 400 ≤ b.length
    · by_cases hfit : lengthWord b ≤ limit.bytes
      · exact ⟨.ok (some (ofStart b hwhole)), .header ha hwhole hfit rfl⟩
      · cases limit with
        | capacity => exact ⟨_, .overflow ha hwhole (Nat.lt_of_not_le hfit)⟩
        | enclosing => exact ⟨_, .unfit ha hwhole (Nat.lt_of_not_le hfit)⟩
    · exact ⟨_, .truncated ha (Nat.lt_of_not_le hwhole)⟩
  · exact ⟨_, .nothing (not_announced_iff.mp ha)⟩

theorem Finds.parse_eq {r : Except Error (Option Header)} (h : Finds b limit r) :
    parse b limit = r := by
  have hexcess : ∀ {limit : SizeLimit}, Announced b → 400 ≤ b.length →
      limit.bytes < lengthWord b → parse b limit = .error limit.excess := by
    intro limit ha hwhole hlt
    have hbytes : b.take size = (ofStart b hwhole).bytes := rfl
    exact parse_of_oversized ha hbytes (by rwa [length_eq_lengthWord hbytes])
  cases h with
  | nothing h => exact parse_eq_none_iff.mpr (not_announced_iff.mpr h)
  | truncated ha h => exact parse_of_truncated ha h
  | overflow ha hwhole h => exact hexcess ha hwhole h
  | unfit ha hwhole h => exact hexcess ha hwhole h
  | header ha hwhole hfit hbytes =>
    exact parse_eq_some_iff.mpr ⟨ha, hbytes.symm, by rwa [length_eq_lengthWord hbytes.symm]⟩

theorem parse_eq_iff_finds {r : Except Error (Option Header)} :
    parse b limit = r ↔ Finds b limit r := by
  constructor
  · rintro rfl
    obtain ⟨r, hr⟩ := exists_finds b limit
    rwa [hr.parse_eq]
  · exact Finds.parse_eq

/-- What is found under a limit is found under every wider one. -/
theorem parse_mono (hle : limit.bytes ≤ limit'.bytes) {found : Option Header}
    (h : parse b limit = .ok found) : parse b limit' = .ok found := by
  cases found with
  | none => exact parse_eq_none_iff.mpr (parse_eq_none_iff.mp h)
  | some header =>
    obtain ⟨ha, hbytes, hfit⟩ := parse_eq_some_iff.mp h
    exact parse_eq_some_iff.mpr ⟨ha, hbytes, Nat.le_trans hfit hle⟩

/-- **The search for a header** comes to exactly what the bytes and the limit say. Only the bytes that a
header takes have a bearing on it, and a wider limit turns nothing away. -/
theorem parse_decides (b : Bytes) (limit : SizeLimit) :
    (∀ r, parse b limit = r ↔ Finds b limit r) ∧
    (∀ b', b'.take 400 = b.take 400 → parse b' limit = parse b limit) ∧
    ∀ limit' found, limit.bytes ≤ limit'.bytes → parse b limit = .ok found →
      parse b limit' = .ok found := by
  refine ⟨fun r => parse_eq_iff_finds, ?_, fun _ _ hle => parse_mono hle⟩
  intro b' hsame
  rw [← parse_take b', hsame, parse_take]

/-- A header that declares just as much as there is room for, with one byte behind it, and the same cut
off one byte before its end. -/
theorem parse_decides_at_limit :
    let header := blank .oemRsa 32
    let image := header.bytes ++ [0xaa]
    parse image (.capacity 32) = .ok (some header) ∧ parse image (.enclosing 33) = .ok (some header) ∧
      parse header.bytes (.enclosing 31) = .error .invalid ∧
      parse image (.capacity 31) = .error .overflow ∧
      parse (image.take 399) (.capacity 0) = .error .invalid ∧
      parse (image.take 3) (.capacity 32) = .ok none := by
  intro header image
  have hwhole : 400 ≤ image.length := by decide +kernel
  have ha : Announced image := by decide +kernel
  have hword : lengthWord image = 32 := by decide +kernel
  obtain ⟨hfinds, -, hwider⟩ := parse_decides image (.capacity 32)
  obtain ⟨hfinds', hsame, -⟩ := parse_decides image (.enclosing 31)
  have hfound : parse image (.capacity 32) = .ok (some header) :=
    (hfinds _).mpr (.header ha hwhole (Nat.le_of_eq hword) (by decide +kernel))
  refine ⟨hfound, hwider _ _ (by decide) hfound, ?_, ?_, ?_, ?_⟩
  · rw [hsame header.bytes (by decide +kernel)]
    exact (hfinds' _).mpr (.unfit ha hwhole (by rw [hword]; decide))
  · exact ((parse_decides image (.capacity 31)).1 _).mpr (.overflow ha hwhole (by rw [hword]; decide))
  · exact ((parse_decides (image.take 399) (.capacity 0)).1 _).mpr
      (.truncated (by decide +kernel) (by decide +kernel))
  · exact ((parse_decides (image.take 3) (.capacity 32)).1 _).mpr (.nothing (.inl (by decide +kernel)))

end SecureBoot.Header
