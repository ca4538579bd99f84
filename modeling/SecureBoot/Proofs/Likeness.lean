import Mathlib.Data.List.Forall2
import SecureBoot.Proofs.Lockstep
import SecureBoot.Session.History

/-!
Two sessions side by side. A `Likeness` says which boards, which headers, which operations count as
alike, and it is `Lawful` if the hardware treats alike what is alike. Then sessions that are alike
answer alike and stay alike, whatever they are asked (`Likeness.Lawful.push`,
`Likeness.Lawful.finalize`, `Likeness.Lawful.answer`): nothing that a session does depends on what a
likeness leaves open, the verdict aside, which depends on the expected signatures.
-/

namespace SecureBoot

open Step

/-! ### Headers with the same signed section -/

namespace Header

variable {h h' : Header}

theorem field_eq_of_signedSection (hs : h'.signedSection = h.signedSection) {start width : Nat}
    (hstart : signedStart ≤ start) (hstop : start + width ≤ size) :
    h'.field start width = h.field start width := by
  have hwithin : ∀ g : Header, g.field start width =
      slice g.signedSection (start - signedStart) width := by
    intro g
    apply List.ext_getElem?
    intro i
    rw [signedSection, Block.field, Block.field, getElem?_slice, getElem?_slice, getElem?_slice]
    split
    · rw [if_pos (by simp only [signedStart, signedSize, size] at *; omega)]
      congr 1
      omega
    · rfl
  rw [hwithin h', hwithin h, hs]

theorem byte_eq_of_signedSection (hs : h'.signedSection = h.signedSection) {start : Nat}
    (hstart : signedStart ≤ start) (hstop : start + 1 ≤ size) : h'.byte start = h.byte start := by
  rw [Block.byte_eq_getD_field, Block.byte_eq_getD_field, field_eq_of_signedSection hs hstart hstop]

section SignedSection

variable (hs : h'.signedSection = h.signedSection)
include hs

theorem signingWord_eq_of_signedSection : h'.signingWord = h.signingWord :=
  congrArg (fun b => UInt32.ofNat (ofLE b)) (field_eq_of_signedSection hs (by decide) (by decide))

theorem length_eq_of_signedSection : h'.length = h.length :=
  congrArg (fun b => (UInt32.ofNat (ofLE b)).toNat)
    (field_eq_of_signedSection hs (by decide) (by decide))

theorem rollbackLevel_eq_of_signedSection : h'.rollbackLevel = h.rollbackLevel :=
  byte_eq_of_signedSection hs (by decide) (by decide)

theorem keyIndex_eq_of_signedSection : h'.keyIndex = h.keyIndex :=
  byte_eq_of_signedSection hs (by decide) (by decide)

theorem iv_eq_of_signedSection : h'.iv = h.iv :=
  field_eq_of_signedSection hs (by decide) (by decide)

end SignedSection

end Header

/-! ### Calls -/

/-- Two calls are made in lockstep if the same faults strike them, if they are answered the same up to
`f`, and if boards stay related with the two on record. -/
theorem Board.lockstep_perform {α : Type} {B : Board → Board → Prop} {V : α → α → Prop} {call : Call}
    {answer answer' : Board → Except Error α} {event event' : Except Error α → Event} (f : α → α)
    (hfault : ∀ b b', B b b' → b'.fault? call = b.fault? call)
    (hanswer : ∀ b b', B b b' → answer' b' = (answer b).map f)
    (hvalue : ∀ b a, answer b = .ok a → V a (f a))
    (hrecord : ∀ b b' r, B b b' → B (b.record (event r)) (b'.record (event' (r.map f)))) :
    Lockstep B V (Board.perform call answer event) (Board.perform call answer' event') := by
  intro b b' hb
  rw [Board.run_perform, Board.run_perform]
  unfold Board.result
  rw [hfault b b' hb, hanswer b b' hb]
  cases b.fault? call with
  | some e => exact .error e (hrecord b b' (.error e) hb)
  | none =>
    cases ha : answer b with
    | ok a => exact .ok (hvalue b a ha) (hrecord b b' (.ok a) hb)
    | error e => exact .error e (hrecord b b' (.error e) hb)

/-! ### What is alike -/

/-- What counts as alike in two runs. -/
structure Likeness where
  board : Board → Board → Prop
  cache : SubkeyCache → SubkeyCache → Prop
  header : Header → Header → Prop
  /-- Operations that have been set up for two headers. -/
  context : Header → Header → Context → Context → Prop
  /-- The modes that headers may resolve to. -/
  mode : CryptoMode → Prop

namespace Likeness

variable (L : Likeness)

structure Platforms (p p' : Platform) : Prop where
  board : L.board p.board p'.board
  cache : L.cache p.cache p'.cache

def Contexts (h h' : Header) : List Context → List Context → Prop := List.Forall₂ (L.context h h')

/-- Operations that are alike, whatever headers they have been set up for. -/
def Operations (c c' : Context) : Prop := ∃ h h', L.context h h' c c'

/-- Operations that are alike and come to the same verdict. -/
structure Agree (c c' : Context) : Prop where
  alike : L.Operations c c'
  verdict : c'.verdict = c.verdict

structure Layers (l l' : Layer) : Prop where
  header : L.header l.header l'.header
  mode : l'.mode = l.mode
  start : l'.start = l.start
  done : l'.done = l.done
  contexts : L.Contexts l.header l'.header l.contexts l'.contexts

/-- Inner headers are read out of the destination, so they are the same. -/
inductive Chains : Chain → Chain → Prop where
  | empty : Chains .empty .empty
  | undecided {outer outer' : Layer} (houter : L.Layers outer outer') :
      Chains (.undecided outer) (.undecided outer')
  | single {outer outer' : Layer} (houter : L.Layers outer outer') :
      Chains (.single outer) (.single outer')
  | nested {outer outer' inner inner' : Layer} (houter : L.Layers outer outer')
      (hinner : L.Layers inner inner') (hsame : inner'.header = inner.header) :
      Chains (.nested outer inner) (.nested outer' inner')

/-- Sessions that differ in their hardware and in their chains only, as far as these may differ. -/
inductive Sessions : Session → Session → Prop where
  | mk {s : Session} {p : Platform} {c : Chain} (hmode : ∀ m, s.source.Admits m → L.mode m)
      (hplatform : L.Platforms s.platform p) (hchain : L.Chains s.chain c) :
      Sessions s { s with platform := p, chain := c }

/-- What the hardware has to do to keep what is alike alike. -/
structure Lawful : Prop where
  header_refl : ∀ h, L.header h h
  signedSection : ∀ {h h'}, L.header h h' → h'.signedSection = h.signedSection
  algorithm : ∀ {h h' c c'}, L.context h h' c c' → c'.algorithm = c.algorithm
  openContext : ∀ {mode h h'}, L.mode mode → L.header h h' → ∀ keys, ∀ algorithm ∈ mode.plan,
    Lockstep L.Platforms (L.context h h') (Platform.openContext mode keys h algorithm)
      (Platform.openContext mode keys h' algorithm)
  process : ∀ {h h' c c'}, L.context h h' c c' → ∀ data,
    Lockstep L.board (fun r r' => L.context h h' r.1 r'.1 ∧ r'.2 = r.2) (Board.process c data)
      (Board.process c' data)
  finalize : ∀ {c c'}, L.Operations c c' → c'.verdict = c.verdict →
    Lockstep L.board Eq (Board.finalize c) (Board.finalize c')
  close : ∀ {c c' b b'}, L.board b b' → L.Operations c c' → L.board (b.close c) (b'.close c')

variable {L}

/-! ### Reading what is alike -/

namespace Layers

variable {l l' : Layer}

section Lawful

variable (hL : L.Lawful) (h : L.Layers l l')
include hL h

theorem size_eq : l'.size = l.size :=
  Header.length_eq_of_signedSection (hL.signedSection h.header)

theorem stop_eq : l'.stop = l.stop := by rw [Layer.stop, Layer.stop, h.start, h.size_eq hL]

theorem extent_eq : l'.extent = l.extent := by
  rw [Layer.extent, Layer.extent, h.start, h.stop_eq hL]

end Lawful

theorem safeEnd_eq (h : L.Layers l l') : l'.safeEnd = l.safeEnd := by
  rw [Layer.safeEnd, Layer.safeEnd, h.start, h.done]

theorem isNvidia_eq (h : L.Layers l l') : l'.isNvidia = l.isNvidia := by
  rw [Layer.isNvidia, Layer.isNvidia, h.mode]

theorem runnable_eq (hL : L.Lawful) (h : L.Layers l l') (available : Nat) :
    l'.runnable available = l.runnable available := by
  simp only [Layer.runnable, h.stop_eq hL, h.safeEnd_eq, h.mode]

theorem advance (h : L.Layers l l') (n : Nat) {contexts contexts' : List Context}
    (hcontexts : L.Contexts l.header l'.header contexts contexts') :
    L.Layers (l.advance n contexts) (l'.advance n contexts') where
  header := h.header
  mode := h.mode
  start := h.start
  done := congrArg (· + n) h.done
  contexts := hcontexts

theorem released (h : L.Layers l l') : L.Layers l.released l'.released where
  header := h.header
  mode := h.mode
  start := h.start
  done := h.done
  contexts := .nil

end Layers

namespace Chains

variable {c c' : Chain}

theorem layers (h : L.Chains c c') : List.Forall₂ L.Layers c.layers c'.layers := by
  cases h with
  | empty => exact .nil
  | undecided houter | single houter => exact .cons houter .nil
  | nested houter hinner => exact .cons houter (.cons hinner .nil)

theorem withOuter {outer outer' : Layer} (h : L.Chains c c') (houter : L.Layers outer outer') :
    L.Chains (c.withOuter outer) (c'.withOuter outer') := by
  cases h with
  | empty => exact .empty
  | undecided => exact .undecided houter
  | single => exact .single houter
  | nested _ hinner hsame => exact .nested houter hinner hsame

theorem released (h : L.Chains c c') :
    L.Chains (c.map Layer.released) (c'.map Layer.released) := by
  cases h with
  | empty => exact .empty
  | undecided houter => exact .undecided houter.released
  | single houter => exact .single houter.released
  | nested houter hinner hsame => exact .nested houter.released hinner.released hsame

theorem safe?_eq (hL : L.Lawful) (h : L.Chains c c') : c'.safe? = c.safe? := by
  cases h with
  | empty | undecided => rfl
  | single houter => exact congrArg some houter.safeEnd_eq
  | nested houter hinner =>
    simp only [Chain.safe?, houter.safeEnd_eq, hinner.safeEnd_eq, hinner.stop_eq hL]

theorem operations (h : L.Chains c c') : List.Forall₂ L.Operations c.contexts c'.contexts := by
  have hlayers := h.layers
  unfold Chain.contexts
  generalize c.layers = ls, c'.layers = ls' at hlayers ⊢
  induction hlayers with
  | nil => exact .nil
  | cons hl _ ih =>
    rw [List.flatMap_cons, List.flatMap_cons]
    exact List.rel_append (hl.contexts.imp fun _ _ hc => ⟨_, _, hc⟩) ih

theorem length_layers_eq (h : L.Chains c c') : c'.layers.length = c.layers.length :=
  h.layers.length_eq.symm

theorem isNvidia_eq (h : L.Chains c c') :
    c'.layers.map Layer.isNvidia = c.layers.map Layer.isNvidia := by
  have hmap := h.layers
  generalize c.layers = ls, c'.layers = ls' at hmap ⊢
  induction hmap with
  | nil => rfl
  | cons hl _ ih => rw [List.map_cons, List.map_cons, hl.isNvidia_eq, ih]

end Chains

end Likeness

end SecureBoot
