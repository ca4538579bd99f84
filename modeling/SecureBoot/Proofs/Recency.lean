import SecureBoot.Proofs.Independence

/-!
The sub-keys that are kept. Getting the sub-keys of a slot comes to one of three things
(`Platform.Gets`): they are held, the engine derives them, or it refuses to.

The cache is the list of the slots that have been got since it was last cleared, each where it stands
last, cut off after two (`Platform.holds_log`): a slot that is got again moves to the front, and one that
is new pushes out the one that has not been got for longest (`SubkeyCache.touch_holding_eq`). So it is
known from the answers alone which slots are held, and the engine is asked for the sub-keys of all others
and of no other (`Platform.subkeys_by_recency`).
-/

namespace SecureBoot

open Step

/-! ### Getting sub-keys -/

namespace Platform

/-- What getting the sub-keys of a slot comes to, with the platform that it leaves. -/
inductive Gets (slot : KeySlot) (p : Platform) : Except Error Subkeys → Platform → Prop where
  | held {keys : Subkeys} (h : p.cache.get? slot = some keys) :
      Gets slot p (.ok keys) { p with cache := p.cache.touch slot keys }
  | derived (h : p.cache.get? slot = none) (hfault : p.board.fault? .derive = none) :
      Gets slot p (.ok (Subkeys.ofSlot slot))
        ⟨p.board.record (.derive slot (.ok (Subkeys.ofSlot slot))),
          p.cache.touch slot (Subkeys.ofSlot slot)⟩
  | refused {e : Error} (h : p.cache.get? slot = none) (hfault : p.board.fault? .derive = some e) :
      Gets slot p (.error e) { p with board := p.board.record (.derive slot (.error e)) }

theorem ensures_subkeys_gets (slot : KeySlot) (p : Platform) :
    Ensures (subkeys slot) p (fun keys => p.Gets slot (.ok keys)) fun e => p.Gets slot (.error e) := by
  simp only [subkeys, findSubkeys, ensures_bind, ensures_get, ensures_modify, ensures_pure]
  cases hget : p.cache.get? slot with
  | some keys => exact .held hget
  | none =>
    simp only [onBoard, ensures_focus]
    unfold Ensures Board.deriveSubkeys
    rw [Board.run_perform, Board.result]
    cases hfault : p.board.fault? .derive with
    | none => exact .derived hget hfault
    | some e => exact .refused hget hfault

theorem gets (slot : KeySlot) (p : Platform) :
    p.Gets slot ((subkeys slot).outcome p) ((subkeys slot).final p) :=
  (ensures_subkeys_gets slot p).result

end Platform

/-! ### The distinct elements of a list -/

section Distinct

variable {α : Type} [DecidableEq α]

theorem eraseDups_filter (p : α → Bool) : ∀ l : List α,
    (l.filter p).eraseDups = l.eraseDups.filter p
  | [] => rfl
  | a :: rest => by
    -- What follows an element is taken apart without the element, so it is shorter but no tail.
    have hrest := eraseDups_filter p (rest.filter fun b => !b == a)
    by_cases ha : p a
    · rw [List.filter_cons_of_pos ha, List.eraseDups_cons, List.eraseDups_cons,
        List.filter_cons_of_pos ha, ← hrest, List.filter_filter, List.filter_filter]
      simp only [Bool.and_comm]
    · rw [List.filter_cons_of_neg ha, List.eraseDups_cons, List.filter_cons_of_neg ha, ← hrest,
        List.filter_filter]
      congr 1
      apply List.filter_congr
      intro b _
      by_cases hb : b = a
      · simp [hb, ha]
      · simp [hb]
termination_by l => l.length
decreasing_by exact Nat.lt_succ_of_le (List.length_filter_le _ _)

theorem nodup_eraseDups (l : List α) : l.eraseDups.Nodup := by
  induction l with
  | nil => exact List.nodup_nil
  | cons a rest ih =>
    rw [List.eraseDups_cons, List.nodup_cons, List.mem_eraseDups, eraseDups_filter]
    exact ⟨by simp, ih.filter _⟩

/-- Among distinct elements, leaving one out makes room for one at most. -/
theorem take_filter_ne_take {l : List α} (h : l.Nodup) (a : α) (n : Nat) :
    ((l.take (n + 1)).filter (· ≠ a)).take n = (l.filter (· ≠ a)).take n := by
  induction l generalizing n with
  | nil => rfl
  | cons b rest ih =>
    obtain ⟨hb, hrest⟩ := List.nodup_cons.mp h
    by_cases hab : b = a
    · subst hab
      have hsame : ∀ {l : List α}, b ∉ l → l.filter (· ≠ b) = l := fun hl =>
        List.filter_eq_self.mpr fun c hc => decide_eq_true fun hcb => hl (hcb ▸ hc)
      simp only [List.take_succ_cons, ne_eq, not_true, decide_false, Bool.false_eq_true,
        not_false_eq_true, List.filter_cons_of_neg]
      rw [hsame hb, hsame fun hmem => hb (List.mem_of_mem_take hmem), List.take_take, Nat.min_self]
    · cases n with
      | zero => rfl
      | succ n =>
        have hkeep : ∀ l : List α, (b :: l).filter (· ≠ a) = b :: l.filter (· ≠ a) := fun _ =>
          List.filter_cons_of_pos (decide_eq_true hab)
        rw [List.take_succ_cons, hkeep, hkeep, List.take_succ_cons, List.take_succ_cons, ih hrest n]

/-- The first distinct elements of a list and of one that begins with another element. -/
theorem take_eraseDups_cons (a : α) (l : List α) (n : Nat) :
    (a :: l).eraseDups.take n = (a :: (l.eraseDups.take n).filter (· ≠ a)).take n := by
  cases n with
  | zero => rfl
  | succ n =>
    have hothers : (l.filter fun b => !b == a) = l.filter (· ≠ a) :=
      List.filter_congr fun b _ => by rw [decide_not, beq_eq_decide]
    rw [List.eraseDups_cons, List.take_succ_cons, List.take_succ_cons, hothers, eraseDups_filter,
      take_filter_ne_take (nodup_eraseDups l)]

end Distinct

/-! ### Asking for sub-keys, and clearing -/

namespace SubkeyCache

inductive Request where
  /-- The sub-keys of a slot are wanted. -/
  | use (slot : KeySlot)
  | clear
deriving DecidableEq, Repr

inductive Answer where
  | use (result : Except Error Subkeys)
  | clear
deriving DecidableEq, Repr

/-- The slot whose sub-keys have been got, if that is what was asked for and what came of it. -/
def got? : Request × Answer → Option KeySlot
  | (.use slot, .use (.ok _)) => some slot
  | _ => none

/-- The slots that have been got since the cache was last cleared, the latest in front. -/
def gotSinceClear (log : List (Request × Answer)) : List KeySlot :=
  (log.reverse.takeWhile fun x => x.1 ≠ .clear).filterMap got?

/-- The slots that have been got last since the cache was cleared, as many as it has room for. -/
def recent (log : List (Request × Answer)) : List KeySlot :=
  (gotSinceClear log).eraseDups.take capacity

/-- The cache that holds the sub-keys of some slots. -/
def holding (slots : List KeySlot) : SubkeyCache :=
  ⟨slots.map fun slot => (slot, Subkeys.ofSlot slot)⟩

theorem get?_holding (slots : List KeySlot) (slot : KeySlot) :
    (holding slots).get? slot = if slot ∈ slots then some (Subkeys.ofSlot slot) else none := by
  simp only [get?, holding]
  induction slots with
  | nil => rfl
  | cons first rest ih =>
    by_cases h : slot = first
    · simp [h]
    · rw [List.map_cons, List.lookup_cons, beq_eq_false_iff_ne.mpr h, ih]
      simp [h]

theorem touch_holding (slots : List KeySlot) (slot : KeySlot) :
    (holding slots).touch slot (Subkeys.ofSlot slot) =
      holding ((slot :: slots.filter (· ≠ slot)).take capacity) := by
  simp [touch, holding, List.map_take, List.filter_map, Function.comp_def]

/-- A slot that is held is taken out from where it stands and put in front. One that is not is put in
front, too, and pushes out the last one if there is no room left. -/
theorem touch_holding_eq {slots : List KeySlot} (hnodup : slots.Nodup)
    (hlength : slots.length ≤ capacity) (slot : KeySlot) :
    (holding slots).touch slot (Subkeys.ofSlot slot) = holding (slot ::
      if slot ∈ slots then slots.erase slot
      else if slots.length = capacity then slots.dropLast else slots) := by
  rw [touch_holding, capacity, List.take_succ_cons]
  rw [capacity] at hlength
  congr 2
  by_cases hslot : slot ∈ slots
  · have hothers : slots.erase slot = slots.filter (· ≠ slot) := by
      rw [hnodup.erase_eq_filter]
      exact List.filter_congr fun b _ => by rw [decide_not, bne, beq_eq_decide]
    have hroom := List.length_erase_of_mem hslot
    rw [if_pos hslot, hothers, List.take_of_length_le]
    rw [← hothers]
    omega
  · have hothers : slots.filter (· ≠ slot) = slots :=
      List.filter_eq_self.mpr fun b hb => decide_eq_true fun hbs => hslot (hbs ▸ hb)
    rw [if_neg hslot, hothers]
    split
    · rw [List.dropLast_eq_take]
      congr 1
      omega
    · exact List.take_of_length_le (by omega)

/-- A slot that is got comes to the front, and the others that were got last stay behind it. -/
theorem recent_concat_got (log : List (Request × Answer)) (slot : KeySlot) (keys : Subkeys) :
    recent (log ++ [(.use slot, .use (.ok keys))]) =
      (slot :: (recent log).filter (· ≠ slot)).take capacity := by
  have hgot : gotSinceClear (log ++ [(.use slot, .use (.ok keys))]) = slot :: gotSinceClear log := by
    simp [gotSinceClear, got?]
  rw [recent, hgot, take_eraseDups_cons]
  rfl

theorem recent_nodup (log : List (Request × Answer)) : (recent log).Nodup :=
  (nodup_eraseDups _).sublist (List.take_sublist ..)

theorem length_recent_le (log : List (Request × Answer)) : (recent log).length ≤ capacity :=
  List.length_take_le ..

theorem recent_concat_refused (log : List (Request × Answer)) (slot : KeySlot) (e : Error) :
    recent (log ++ [(.use slot, .use (.error e))]) = recent log := by
  have hgot : gotSinceClear (log ++ [(.use slot, .use (.error e))]) = gotSinceClear log := by
    simp only [gotSinceClear, List.reverse_append, List.reverse_singleton, List.singleton_append]
    rfl
  rw [recent, hgot, recent]

theorem recent_concat_clear (log : List (Request × Answer)) :
    recent (log ++ [(.clear, .clear)]) = [] := by
  simp [recent, gotSinceClear]

end SubkeyCache

namespace Platform

open SubkeyCache

/-- What comes of a request, and what it leaves. -/
def answer (p : Platform) : Request → Answer × Platform
  | .use slot => Prod.map .use id ((subkeys slot).exec p)
  | .clear => (.clear, { p with cache := .empty })

def after (p : Platform) (asked : List Request) : Platform :=
  asked.foldl (fun p r => (p.answer r).2) p

/-- The requests, each with what came of it. -/
def log (p : Platform) : List Request → List (Request × Answer)
  | [] => []
  | r :: rest => (r, (p.answer r).1) :: log (p.answer r).2 rest

theorem after_concat (p : Platform) (asked : List Request) (r : Request) :
    p.after (asked ++ [r]) = ((p.after asked).answer r).2 := by
  simp [after]

theorem log_concat (p : Platform) (asked : List Request) (r : Request) :
    p.log (asked ++ [r]) = p.log asked ++ [(r, ((p.after asked).answer r).1)] := by
  induction asked generalizing p with
  | nil => rfl
  | cons first rest ih => simp [log, after, ih]

section Log

variable {board : Board} {log : List (Request × Answer)} {p : Platform}

/-- What a platform that has been used from the board on holds after the requests in a log: the
sub-keys of the slots got last, all of which the engine has derived in the meantime. -/
structure Holds (board : Board) (log : List (Request × Answer)) (p : Platform) : Prop where
  cache : p.cache = holding (recent log)
  calls : ∃ u, p.board = board.recordAll u ∧
    ∀ slot ∈ recent log, .derive slot (.ok (Subkeys.ofSlot slot)) ∈ u

theorem holds_nil (board : Board) : Holds board [] ⟨board, .empty⟩ where
  cache := rfl
  calls := ⟨[], by simp [Board.recordAll], fun _ h => absurd h List.not_mem_nil⟩

namespace Holds

theorem get?_eq (h : Holds board log p) (slot : KeySlot) :
    p.cache.get? slot = if slot ∈ recent log then some (Subkeys.ofSlot slot) else none := by
  rw [h.cache, get?_holding]

/-- A slot that is got is held from then on, if it has been derived in the meantime. -/
theorem concat_got (h : Holds board log p) {slot : KeySlot} {u : Trace}
    (hslot : slot ∈ recent log ∨ .derive slot (.ok (Subkeys.ofSlot slot)) ∈ u) :
    Holds board (log ++ [(.use slot, .use (.ok (Subkeys.ofSlot slot)))])
      ⟨p.board.recordAll u, p.cache.touch slot (Subkeys.ofSlot slot)⟩ where
  cache := by rw [h.cache, touch_holding, recent_concat_got]
  calls := by
    obtain ⟨v, hv, hderived⟩ := h.calls
    refine ⟨v ++ u, by simp [hv, Board.recordAll], fun other hother => List.mem_append.mpr ?_⟩
    rw [recent_concat_got] at hother
    rcases List.mem_cons.mp (List.mem_of_mem_take hother) with rfl | hrest
    · exact hslot.imp_left (hderived other)
    · exact .inl (hderived other (List.mem_of_mem_filter hrest))

theorem gets (h : Holds board log p) {slot : KeySlot} {result : Except Error Subkeys} {p' : Platform}
    (hgets : p.Gets slot result p') : Holds board (log ++ [(.use slot, .use result)]) p' := by
  cases hgets with
  | held hget =>
    rw [h.get?_eq, Option.ite_none_right_eq_some] at hget
    obtain ⟨hslot, ⟨⟩⟩ := hget
    have hheld := h.concat_got (u := []) (.inl hslot)
    simpa [Board.recordAll] using hheld
  | derived => exact h.concat_got (.inr List.mem_cons_self)
  | @refused e _ _ =>
    obtain ⟨u, hu, hderived⟩ := h.calls
    constructor
    · rw [recent_concat_refused, h.cache]
    · refine ⟨u ++ [.derive slot (.error e)], by simp [hu], fun other hother => ?_⟩
      rw [recent_concat_refused] at hother
      exact List.mem_append_left _ (hderived other hother)

/-- Which slots are held decides whether the engine is asked, what is got in the end and which slots
are held then. -/
theorem result_of_gets (h : Holds board log p) {slot : KeySlot} {result : Except Error Subkeys}
    {p' : Platform} (hgets : p.Gets slot result p') :
    let held := recent log
    let derived := p.board.result .derive (.ok (Subkeys.ofSlot slot))
    (slot ∈ held → result = .ok (Subkeys.ofSlot slot) ∧
      p' = ⟨p.board, holding (slot :: held.erase slot)⟩) ∧
    (slot ∉ held → result = derived ∧ p'.board = p.board.record (.derive slot derived) ∧
      p'.cache = match derived with
        | .ok _ => holding (slot :: if held.length = capacity then held.dropLast else held)
        | .error _ => p.cache) := by
  intro held derived
  have htouch : p.cache.touch slot (Subkeys.ofSlot slot) = holding (slot ::
      if slot ∈ held then held.erase slot
      else if held.length = capacity then held.dropLast else held) := by
    rw [h.cache, touch_holding_eq (recent_nodup log) (length_recent_le log)]
  have hnone : p.cache.get? slot = none → slot ∉ recent log := by
    rw [h.get?_eq]
    intro hget hslot
    simp [hslot] at hget
  cases hgets with
  | held hget =>
    rw [h.get?_eq, Option.ite_none_right_eq_some] at hget
    obtain ⟨hslot, ⟨⟩⟩ := hget
    rw [if_pos hslot] at htouch
    rw [htouch]
    exact ⟨fun _ => ⟨rfl, rfl⟩, fun hnot => absurd hslot hnot⟩
  | derived hget hfault =>
    have hderived : derived = .ok (Subkeys.ofSlot slot) := by simp only [derived, Board.result, hfault]
    rw [if_neg (hnone hget)] at htouch
    rw [hderived, htouch]
    exact ⟨fun hslot => absurd hslot (hnone hget), fun _ => ⟨rfl, rfl, rfl⟩⟩
  | @refused e hget hfault =>
    have hderived : derived = .error e := by simp only [derived, Board.result, hfault]
    rw [hderived]
    exact ⟨fun hslot => absurd hslot (hnone hget), fun _ => ⟨rfl, rfl, rfl⟩⟩

/-- A request that has been answered is on the log. -/
theorem answer (h : Holds board log p) (r : Request) :
    Holds board (log ++ [(r, (p.answer r).1)]) (p.answer r).2 := by
  cases r with
  | use slot => exact h.gets (p.gets slot)
  | clear =>
    obtain ⟨u, hu, -⟩ := h.calls
    change Holds board (log ++ [(.clear, .clear)]) { p with cache := .empty }
    constructor
    · rw [recent_concat_clear]
      rfl
    · exact ⟨u, hu, by simp [recent_concat_clear]⟩

end Holds

theorem holds_log (board : Board) (asked : List Request) :
    Holds board (Platform.log ⟨board, .empty⟩ asked) (after ⟨board, .empty⟩ asked) := by
  -- The last request is the one that counts, so the induction takes it off.
  induction asked using List.reverseRecOn with
  | nil => exact holds_nil board
  | append_singleton asked r ih =>
    rw [log_concat, after_concat]
    exact ih.answer r

end Log

/-- **The cache holds what has been got last.** After any requests, whichever of them have failed, it
holds exactly the two slots, or fewer if there are no more, that have been got last since it was last
cleared, the latest in front, each with the sub-keys that the engine has derived for it. The sub-keys
of a slot that is held are got without a call, and the slot moves to the front. For any other slot the
engine is asked, and its answer is the answer: the slot pushes out the last one if there is no room, but
if the answer is an error, what is held stays as it is. -/
theorem subkeys_by_recency (board : Board) (asked : List Request) :
    let start : Platform := ⟨board, .empty⟩
    let p := start.after asked
    let held := recent (start.log asked)
    p.cache.entries = held.map (fun slot => (slot, Subkeys.ofSlot slot)) ∧
    (∃ u, p.board = board.recordAll u ∧
      ∀ entry ∈ p.cache.entries, .derive entry.1 (.ok entry.2) ∈ u) ∧
    ∀ slot,
      let result := (subkeys slot).outcome p
      let p' := (subkeys slot).final p
      let derived := p.board.result .derive (.ok (Subkeys.ofSlot slot))
      (p.cache.contains slot ↔ slot ∈ held) ∧
      (slot ∈ held → result = .ok (Subkeys.ofSlot slot) ∧
        p' = ⟨p.board, holding (slot :: held.erase slot)⟩) ∧
      (slot ∉ held → result = derived ∧ p'.board = p.board.record (.derive slot derived) ∧
        p'.cache = match derived with
          | .ok _ => holding (slot :: if held.length = capacity then held.dropLast else held)
          | .error _ => p.cache) := by
  intro start p held
  have hholds : Holds board (start.log asked) p := holds_log board asked
  have hentries : p.cache.entries = held.map fun slot => (slot, Subkeys.ofSlot slot) :=
    congrArg SubkeyCache.entries hholds.cache
  refine ⟨hentries, ?_, fun slot => ⟨?_, hholds.result_of_gets (p.gets slot)⟩⟩
  · obtain ⟨u, hu, hderived⟩ := hholds.calls
    refine ⟨u, hu, fun entry hentry => ?_⟩
    rw [hentries] at hentry
    obtain ⟨slot, hslot, rfl⟩ := List.mem_map.mp hentry
    exact hderived slot hslot
  · rw [contains, hholds.get?_eq]
    by_cases hslot : slot ∈ recent (start.log asked) <;> simp [hslot, held]

end Platform

end SecureBoot
