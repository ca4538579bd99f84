import Mathlib.Data.List.Perm.Subperm
import SecureBoot.Proofs.Recency

/-!
Deriving sub-keys. A CMAC is set up with the sub-keys of its key slot, which have to be derived first.
`Trace.Justified` says that calls are in order for a slot: sub-keys are derived for no other slot and
only if they have not been derived since the cache was last cleared, and a CMAC is set up with the key in
the slot and with the sub-keys that have been derived for it since then.

As long as there is room for every slot in use, nothing is ever pushed out of the cache, so that it holds
exactly what has been derived since it was last cleared, each slot once (`SubkeyCache.Reflects`). Then
all that is done for a header is in order (`Platform.Advances`), from getting sub-keys
(`Platform.Gets.reflects`) up to setting up its operations (`Platform.advances_openContexts`).
-/

namespace SecureBoot

open Step

/-! ### Calls about key material -/

namespace Event

/-- The call derives sub-keys or sets up a CMAC. -/
def isKeyed : Event → Bool
  | .derive .. | .init .aesCmac .. => true
  | _ => false

/-- The call has derived the sub-keys of a slot. -/
def derives (slot : KeySlot) : Event → Bool
  | .derive other (.ok _) => other = slot
  | _ => false

/-- The call is in order for a type of binary whose CMACs have their key in a slot, if the calls in
`past` have been made since the sub-keys were last cleared. -/
def Justified (slot : KeySlot) (past : Trace) : Event → Prop
  | .derive asked _ => asked = slot ∧ ∀ subkeys, .derive slot (.ok subkeys) ∉ past
  | .init .aesCmac setup _ =>
    setup.key = .slot slot ∧
      ∃ subkeys, setup.subkeys = some subkeys ∧ .derive slot (.ok subkeys) ∈ past
  | _ => True

variable {e : Event} {slot : KeySlot} {past : Trace}

theorem not_isKeyed_of_isUse (h : e.isUse) : e.isKeyed = false := by
  cases e <;> trivial

theorem not_isKeyed_of_isLook (h : e.isLook) : e.isKeyed = false := by
  cases e <;> trivial

theorem not_isKeyed_of_not_isEngine (h : e.isEngine = false) : e.isKeyed = false := by
  cases e <;> trivial

theorem justified_of_not_isKeyed (h : e.isKeyed = false) : e.Justified slot past := by
  unfold Justified
  split <;> trivial

theorem not_derives_of_not_isKeyed (h : e.isKeyed = false) : e.derives slot = false := by
  cases e <;> trivial

theorem derives_iff : e.derives slot ↔ ∃ subkeys, e = .derive slot (.ok subkeys) := by
  constructor
  · intro h
    unfold derives at h
    split at h
    · exact ⟨_, by rw [of_decide_eq_true h]⟩
    · cases h
  · rintro ⟨subkeys, rfl⟩
    exact decide_eq_true rfl

end Event

namespace Trace

variable {slot : KeySlot} {past u v : Trace}

/-- Each of the calls is in order after those in `past` and the ones before it. -/
def Justified (u : Trace) (slot : KeySlot) (past : Trace) : Prop :=
  ∀ before e after, u = before ++ e :: after → e.Justified slot (past ++ before)

theorem justified_of_forall (h : ∀ e ∈ u, e.isKeyed = false) : u.Justified slot past := by
  rintro before e after rfl
  exact Event.justified_of_not_isKeyed (h e (List.mem_append_right _ List.mem_cons_self))

theorem justified_singleton {e : Event} (h : e.Justified slot past) :
    Justified [e] slot past := by
  intro before e' after hsplit
  cases before with
  | nil =>
    obtain ⟨rfl, -⟩ := List.cons.inj hsplit
    rwa [List.append_nil]
  | cons first before =>
    obtain ⟨-, hrest⟩ := List.cons.inj hsplit
    cases before <;> cases hrest

theorem Justified.append (hu : u.Justified slot past) (hv : v.Justified slot (past ++ u)) :
    Trace.Justified (u ++ v) slot past := by
  intro before e after hsplit
  -- The call is one of the second part, or else it is one of the first.
  rcases List.append_eq_append_iff.mp hsplit with ⟨mid, rfl, hv'⟩ | ⟨mid, hu', hrest⟩
  · rw [← List.append_assoc]
    exact hv mid e after hv'
  · cases mid with
    | nil =>
      obtain rfl : u = before := hu'.trans (List.append_nil before)
      have hlast := hv [] e after hrest.symm
      rwa [List.append_nil] at hlast
    | cons first mid =>
      obtain ⟨rfl, -⟩ := List.cons.inj hrest
      exact hu before e mid hu'

end Trace

/-! ### The cache as a record of what has been derived -/

namespace SubkeyCache

/-- The slots whose sub-keys are held. -/
def slots (cache : SubkeyCache) : List KeySlot := cache.entries.map Prod.fst

@[simp] theorem slots_holding (held : List KeySlot) : (holding held).slots = held := by
  simp [slots, holding, Function.comp_def]

/-- The cache holds what the calls in `past` have derived, each slot once, and the slots are among those
in use. -/
structure Reflects (used : List KeySlot) (past : Trace) (cache : SubkeyCache) : Prop where
  eq_holding : cache = holding cache.slots
  nodup : cache.slots.Nodup
  subset : cache.slots ⊆ used
  derived : ∀ slot ∈ cache.slots, .derive slot (.ok (Subkeys.ofSlot slot)) ∈ past
  count : ∀ slot, past.countP (·.derives slot) = if slot ∈ cache.slots then 1 else 0

variable {used : List KeySlot} {past u : Trace} {cache : SubkeyCache} {slot : KeySlot}

theorem reflects_empty (used : List KeySlot) : Reflects used [] .empty where
  eq_holding := rfl
  nodup := .nil
  subset := List.nil_subset used
  derived := fun _ h => absurd h List.not_mem_nil
  count := fun _ => rfl

namespace Reflects

theorem get?_eq (h : Reflects used past cache) (slot : KeySlot) :
    cache.get? slot = if slot ∈ cache.slots then some (Subkeys.ofSlot slot) else none := by
  have hget := get?_holding cache.slots slot
  rwa [← h.eq_holding] at hget

/-- What is held has been derived, and what is not held has not been. -/
theorem not_derived (h : Reflects used past cache) (hslot : slot ∉ cache.slots) (subkeys : Subkeys) :
    .derive slot (.ok subkeys) ∉ past := by
  have hnone := h.count slot
  rw [if_neg hslot, List.countP_eq_zero] at hnone
  exact fun hmem => hnone _ hmem (Event.derives_iff.mpr ⟨subkeys, rfl⟩)

theorem count_le_one (h : Reflects used past cache) (slot : KeySlot) :
    past.countP (·.derives slot) ≤ 1 := by
  rw [h.count]
  split <;> decide

/-- Calls that derive nothing leave the cache up to date. -/
theorem append (h : Reflects used past cache) (hu : ∀ e ∈ u, ∀ slot, e.derives slot = false) :
    Reflects used (past ++ u) cache where
  eq_holding := h.eq_holding
  nodup := h.nodup
  subset := h.subset
  derived := fun slot hslot => List.mem_append_left u (h.derived slot hslot)
  count := fun slot => by
    have hnone : u.countP (·.derives slot) = 0 :=
      List.countP_eq_zero.mpr fun e he => Bool.not_eq_true _ ▸ hu e he slot
    rw [List.countP_append, hnone, Nat.add_zero, h.count]

/-- The slots that are held once another slot has been put in front. -/
theorem in_front (h : Reflects used past cache) (hslot : slot ∈ used) :
    (slot :: cache.slots.filter (· ≠ slot)).Nodup ∧
      slot :: cache.slots.filter (· ≠ slot) ⊆ used := by
  refine ⟨List.nodup_cons.mpr ⟨by simp, h.nodup.filter _⟩, List.cons_subset.mpr ⟨hslot, ?_⟩⟩
  intro other hother
  exact h.subset (List.mem_of_mem_filter hother)

/-- As there is room for all slots in use, using one pushes out no other. -/
theorem touch_eq (h : Reflects used past cache) (hslot : slot ∈ used)
    (hroom : used.length ≤ capacity) :
    cache.touch slot (Subkeys.ofSlot slot) = holding (slot :: cache.slots.filter (· ≠ slot)) := by
  have htouch := touch_holding cache.slots slot
  obtain ⟨hnodup, hsubset⟩ := h.in_front hslot
  have hfits := Nat.le_trans (hnodup.subperm hsubset).length_le hroom
  rwa [List.take_of_length_le hfits, ← h.eq_holding] at htouch

/-- Using a slot whose sub-keys are held or have just been derived, for the first time. -/
theorem touch (h : Reflects used past cache) (hslot : slot ∈ used) (hroom : used.length ≤ capacity)
    (hderived : .derive slot (.ok (Subkeys.ofSlot slot)) ∈ past ++ u)
    (hcount : ∀ other, u.countP (·.derives other) =
      if other = slot ∧ slot ∉ cache.slots then 1 else 0) :
    Reflects used (past ++ u) (cache.touch slot (Subkeys.ofSlot slot)) := by
  rw [h.touch_eq hslot hroom]
  constructor
  · rw [slots_holding]
  · rw [slots_holding]
    exact (h.in_front hslot).1
  · rw [slots_holding]
    exact (h.in_front hslot).2
  · rw [slots_holding]
    intro other hother
    rcases List.mem_cons.mp hother with rfl | hrest
    · exact hderived
    · exact List.mem_append_left u (h.derived other (List.mem_of_mem_filter hrest))
  · intro other
    rw [List.countP_append, h.count, hcount, slots_holding]
    by_cases hother : other = slot
    · by_cases hheld : slot ∈ cache.slots <;> simp [hother, hheld]
    · simp [hother]

end Reflects

end SubkeyCache

/-! ### Setting up operations -/

namespace Platform

variable {used : List KeySlot} {slot : KeySlot} {keyed : Event → Prop} {p p' p'' : Platform}

/-- Sub-keys that have been got are those that have been derived since the cache was last cleared. -/
theorem Gets.reflects {result : Except Error Subkeys} (hgets : p.Gets slot result p')
    (hslot : slot ∈ used) (hroom : used.length ≤ SubkeyCache.capacity) :
    ∃ u : Trace, p'.board.trace = p.board.trace ++ u ∧
      ∀ past, p.cache.Reflects used past →
        p'.cache.Reflects used (past ++ u) ∧ u.Justified slot past ∧
          ∀ subkeys, result = .ok subkeys → .derive slot (.ok subkeys) ∈ past ++ u := by
  cases hgets with
  | @held keys hget =>
    refine ⟨[], (List.append_nil _).symm, fun past h => ?_⟩
    rw [h.get?_eq, Option.ite_none_right_eq_some] at hget
    obtain ⟨hheld, ⟨⟩⟩ := hget
    have hderived : .derive slot (.ok (Subkeys.ofSlot slot)) ∈ past ++ ([] : Trace) :=
      List.mem_append_left _ (h.derived slot hheld)
    refine ⟨h.touch hslot hroom hderived fun other => by simp [hheld],
      Trace.justified_of_forall (by simp), ?_⟩
    rintro _ ⟨⟩
    exact hderived
  | derived hget =>
    refine ⟨_, rfl, fun past h => ?_⟩
    have hnot : slot ∉ p.cache.slots := by
      rw [h.get?_eq] at hget
      exact fun hheld => by simp [hheld] at hget
    have hderived : .derive slot (.ok (Subkeys.ofSlot slot)) ∈
        past ++ [.derive slot (.ok (Subkeys.ofSlot slot))] :=
      List.mem_append_right _ List.mem_cons_self
    refine ⟨h.touch hslot hroom hderived fun other => ?_,
      Trace.justified_singleton ⟨rfl, h.not_derived hnot⟩, ?_⟩
    · simp [hnot, Event.derives, eq_comm]
    · rintro _ ⟨⟩
      exact hderived
  | @refused e hget =>
    refine ⟨_, rfl, fun past h => ⟨h.append (by simp [Event.derives]),
      Trace.justified_singleton ⟨rfl, h.not_derived ?_⟩, nofun⟩⟩
    rw [h.get?_eq] at hget
    exact fun hheld => by simp [hheld] at hget

/-- The calls between two states of a platform are in order for a slot, whatever has been derived
before, and the cache is kept up to date. The calls about key material are all such as `keyed` says. -/
def Advances (used : List KeySlot) (slot : KeySlot) (keyed : Event → Prop) (p p' : Platform) : Prop :=
  ∃ u : Trace, p'.board.trace = p.board.trace ++ u ∧ (∀ e ∈ u, e.isKeyed → keyed e) ∧
    ∀ past, p.cache.Reflects used past →
      p'.cache.Reflects used (past ++ u) ∧ u.Justified slot past

/-- Calls that are not about key material. -/
theorem advances_of_calls {u : Trace} (hcache : p'.cache = p.cache)
    (htrace : p'.board.trace = p.board.trace ++ u) (hu : ∀ e ∈ u, e.isKeyed = false) :
    p.Advances used slot keyed p' := by
  refine ⟨u, htrace, fun e he hkeyed => ?_, fun past h => ⟨?_, Trace.justified_of_forall hu⟩⟩
  · rw [hu e he] at hkeyed
    cases hkeyed
  · rw [hcache]
    exact h.append fun e he slot => Event.not_derives_of_not_isKeyed (hu e he)

theorem Advances.refl (p : Platform) : p.Advances used slot keyed p :=
  advances_of_calls rfl (List.append_nil _).symm (by simp)

theorem Advances.trans (h : p.Advances used slot keyed p') (h' : p'.Advances used slot keyed p'') :
    p.Advances used slot keyed p'' := by
  obtain ⟨u, hu, hkeyed, hall⟩ := h
  obtain ⟨v, hv, hkeyed', hall'⟩ := h'
  refine ⟨u ++ v, by rw [hv, hu, List.append_assoc],
    List.forall_mem_append.mpr ⟨hkeyed, hkeyed'⟩, fun past hpast => ?_⟩
  obtain ⟨hreflects, hjustified⟩ := hall past hpast
  obtain ⟨hreflects', hjustified'⟩ := hall' (past ++ u) hreflects
  rw [List.append_assoc] at hreflects'
  exact ⟨hreflects', hjustified.append hjustified'⟩

instance : Std.Refl (Advances used slot keyed) := ⟨Advances.refl⟩

instance : IsTrans Platform (Advances used slot keyed) := ⟨fun _ _ _ => Advances.trans⟩

theorem Advances.mono {keyed' : Event → Prop} (h : p.Advances used slot keyed p')
    (hkeyed : ∀ u, p'.board.trace = p.board.trace ++ u → ∀ e ∈ u, keyed e → keyed' e) :
    p.Advances used slot keyed' p' := by
  obtain ⟨u, hu, hall, h⟩ := h
  exact ⟨u, hu, fun e he hk => hkeyed u hu e he (hall e he hk), h⟩

theorem Advances.reflects (h : p.Advances used slot keyed p') {past u : Trace}
    (hu : p'.board.trace = p.board.trace ++ u) (hpast : p.cache.Reflects used past) :
    p'.cache.Reflects used (past ++ u) ∧ u.Justified slot past ∧ ∀ e ∈ u, e.isKeyed → keyed e := by
  obtain ⟨v, hv, hkeyed, hall⟩ := h
  obtain rfl := List.append_cancel_left (hu.symm.trans hv)
  exact ⟨(hall past hpast).1, (hall past hpast).2, hkeyed⟩

theorem Uses.advances (h : p.Uses p') : p.Advances used slot keyed p' := by
  obtain ⟨u, hu, huse⟩ := h.board.calls
  exact advances_of_calls h.cache hu fun e he => Event.not_isKeyed_of_isUse (huse e he)

theorem Gets.advances {result : Except Error Subkeys} (hgets : p.Gets slot result p')
    (hslot : slot ∈ used) (hroom : used.length ≤ SubkeyCache.capacity) (hkeyed : ∀ e, keyed e) :
    p.Advances used slot keyed p' := by
  obtain ⟨u, hu, hall⟩ := hgets.reflects hslot hroom
  refine ⟨u, hu, fun e _ _ => hkeyed e, fun past hpast => ?_⟩
  obtain ⟨hreflects, hjustified, -⟩ := hall past hpast
  exact ⟨hreflects, hjustified⟩

/-- A CMAC that is set up with sub-keys that have just been got. -/
theorem Gets.advances_init {subkeys : Subkeys} (hgets : p.Gets slot (.ok subkeys) p')
    (hslot : slot ∈ used) (hroom : used.length ≤ SubkeyCache.capacity) (hkeyed : ∀ e, keyed e)
    {setup : Setup} (hkey : setup.key = .slot slot) (hsubkeys : setup.subkeys = some subkeys)
    (result : Except Error Nat) :
    p.Advances used slot keyed
      { p' with board := p'.board.record (.init .aesCmac setup result) } := by
  obtain ⟨u, hu, hall⟩ := hgets.reflects hslot hroom
  refine ⟨u ++ [.init .aesCmac setup result], ?_, fun e _ _ => hkeyed e, fun past hpast => ?_⟩
  · rw [Board.trace_record, hu, List.append_assoc]
  · obtain ⟨hreflects, hjustified, hderived⟩ := hall past hpast
    rw [← List.append_assoc]
    exact ⟨hreflects.append (by simp [Event.derives]), hjustified.append
      (Trace.justified_singleton ⟨hkey, subkeys, hsubkeys, hderived subkeys rfl⟩)⟩

section SettingUp

variable {mode : CryptoMode} {keys : KeyTable} {h : Header} {algorithm : Algorithm}

/-- An operation that is no CMAC is set up without any key material. -/
theorem advances_start (halgorithm : algorithm ≠ .aesCmac) (setup : Setup) :
    Moves (Advances used slot keyed) id (onBoard (Board.start algorithm setup)) := by
  have hstart : Moves (Board.Extends fun e => e.isKeyed = false) id (Board.start algorithm setup) := by
    refine Moves.bind (Board.moves_perform fun _ => ?_) fun _ => moves_pure _
    cases algorithm <;> first | rfl | exact absurd rfl halgorithm
  refine hstart.focus fun p b hboard => ?_
  obtain ⟨u, hu, hnot⟩ := hboard.calls
  exact advances_of_calls rfl hu hnot

/-- **Setting up a CMAC**: it gets the key of the slot and the sub-keys that have been derived for it. -/
theorem advances_openContext_aesCmac (hslot : keys.cmac ∈ used)
    (hroom : used.length ≤ SubkeyCache.capacity) (hkeyed : ∀ e, keyed e) :
    Moves (Advances used keys.cmac keyed) id (openContext mode keys h .aesCmac) := by
  intro p
  have hkey : mode.key keys h.keyIndex .aesCmac = .ok (.slot keys.cmac) := rfl
  simp only [openContext, hkey, subkeysFor, ensures_bind, ensures_ofExcept_ok, ensures_map, onBoard,
    ensures_focus]
  refine (ensures_subkeys_gets keys.cmac p).mono ?_ ?_
  · intro subkeys p₁ hgets
    simp only [Board.start, ensures_bind, ensures_pure]
    refine (Board.ensures_perform _ _ _ p₁.board).mono ?_ ?_
    · rintro id b ⟨-, rfl⟩
      exact hgets.advances_init hslot hroom hkeyed rfl rfl _
    · rintro e b ⟨rfl, -⟩
      exact hgets.advances_init hslot hroom hkeyed rfl rfl _
  · intro e p₁ hgets
    exact hgets.advances hslot hroom hkeyed

theorem advances_openContext (hslot : keys.cmac ∈ used)
    (hroom : used.length ≤ SubkeyCache.capacity) (hkeyed : algorithm = .aesCmac → ∀ e, keyed e) :
    Moves (Advances used keys.cmac keyed) id (openContext mode keys h algorithm) := by
  by_cases halgorithm : algorithm = .aesCmac
  · subst halgorithm
    exact advances_openContext_aesCmac hslot hroom (hkeyed rfl)
  · have hnone : ∀ key, subkeysFor algorithm key = pure none := by
      intro key
      cases algorithm <;> first | rfl | exact absurd rfl halgorithm
    refine (moves_ofExcept _).bind fun key => ?_
    rw [hnone]
    exact (moves_pure none).bind fun _ => advances_start halgorithm _

/-- **Setting up the operations of a header** is in order, and there is key material in it only if a
CMAC is. -/
theorem advances_openContexts (hslot : keys.cmac ∈ used)
    (hroom : used.length ≤ SubkeyCache.capacity) (algorithms : List Algorithm)
    (hkeyed : .aesCmac ∈ algorithms → ∀ e, keyed e) :
    Moves (Advances used keys.cmac keyed) id (openContexts mode keys h algorithms) := by
  induction algorithms with
  | nil => exact moves_pure []
  | cons algorithm rest ih =>
    have hopen : Moves (Advances used keys.cmac keyed) id (openContext mode keys h algorithm) :=
      advances_openContext hslot hroom fun hcmac => hkeyed (hcmac ▸ List.mem_cons_self)
    have hrest := ih fun hcmac => hkeyed (List.mem_cons_of_mem algorithm hcmac)
    exact hopen.bind fun c =>
      (hrest.onError fun p => (uses_closeAll [c] p).advances).bind fun _ => moves_pure _

end SettingUp

end Platform

end SecureBoot
