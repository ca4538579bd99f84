import SecureBoot.Header.Basic
import SecureBoot.SubkeyCache
import SecureBoot.Window

/-!
The headers that a session has accepted, each with how far its operations have run. A binary may
carry a second header at the very start of its payload, typically an OEM's wrapper around an image
that NVIDIA signed. Whether it does is undecided until enough of the outer payload has been run.
-/

namespace SecureBoot

/-- A header that has been accepted, with its operations. -/
structure Layer where
  header : Header
  mode : CryptoMode
  /-- Where its payload begins in the destination. -/
  start : Nat
  /-- Bytes of its payload that have run through every operation. -/
  done : Nat
  /-- Its operations, in the order in which data runs through them; none once they are closed. -/
  contexts : List Context
deriving DecidableEq, Repr

namespace Layer

def size (l : Layer) : Nat := l.header.length

/-- Where in the destination the payload has been run up to. -/
def safeEnd (l : Layer) : Nat := l.start + l.done

/-- Where in the destination the payload ends. -/
def stop (l : Layer) : Nat := l.start + l.size

/-- Where the payload lies in the destination. -/
def extent (l : Layer) : Extent := ⟨l.start, l.stop⟩

def isNvidia (l : Layer) : Bool := l.mode = .nvidiaRsa

/-- Bytes of the region under signature that have been run: the signed section, which runs when the
header is accepted, and the payload since. -/
def processed (l : Layer) : Nat := Header.signedSize + l.done

/-- How much more of the payload may be run once the destination is ready up to `available`: what
there is, but whole granules only unless it is the last of the payload. -/
def runnable (l : Layer) (available : Nat) : Nat :=
  let limit := min available l.stop
  let ready := limit - l.safeEnd
  if limit < l.stop then ready - ready % l.mode.granule else ready

def advance (l : Layer) (n : Nat) (contexts : List Context) : Layer :=
  { l with done := l.done + n, contexts := contexts }

def released (l : Layer) : Layer := { l with contexts := [] }

theorem runnable_le (l : Layer) (available : Nat) :
    l.runnable available ≤ min available l.stop - l.safeEnd := by
  simp only [runnable]
  split <;> omega

end Layer

inductive Chain where
  /-- No header yet. -/
  | empty
  /-- One header, whose payload might still turn out to begin with another. -/
  | undecided (outer : Layer)
  | single (outer : Layer)
  | nested (outer inner : Layer)
deriving DecidableEq, Repr

namespace Chain

/-- The headers, outermost first. -/
def layers : Chain → List Layer
  | .empty => []
  | .undecided outer | .single outer => [outer]
  | .nested outer inner => [outer, inner]

def outer? (c : Chain) : Option Layer := c.layers.head?

def innermost? (c : Chain) : Option Layer := c.layers.getLast?

def map (f : Layer → Layer) : Chain → Chain
  | .empty => .empty
  | .undecided outer => .undecided (f outer)
  | .single outer => .single (f outer)
  | .nested outer inner => .nested (f outer) (f inner)

/-- The chain with another outer layer. -/
def withOuter (outer : Layer) : Chain → Chain
  | .empty => .empty
  | .undecided _ => .undecided outer
  | .single _ => .single outer
  | .nested _ inner => .nested outer inner

/-- Every operation that is still open, the outer layer's first. -/
def contexts (c : Chain) : List Context := c.layers.flatMap Layer.contexts

/-- How much of the destination is output. Nothing is while the start of the payload might still be
a header; an inner payload that has not run to its end holds everything after it back. -/
def safe? : Chain → Option Nat
  | .empty | .undecided _ => none
  | .single outer => some outer.safeEnd
  | .nested outer inner =>
    if inner.safeEnd < inner.stop then some (min outer.safeEnd inner.safeEnd)
    else some outer.safeEnd

theorem length_layers_le (c : Chain) : c.layers.length ≤ 2 := by
  cases c <;> simp [layers]

@[simp] theorem layers_map (f : Layer → Layer) (c : Chain) :
    (c.map f).layers = c.layers.map f := by
  cases c <;> rfl

end Chain

end SecureBoot
