import HeapGuard.Memory
import HeapGuard.RedZone
import HeapGuard.StringObject

/-! # Named blocks

The blocks that the steps of a session gave, by step. A step gives at most one block
of its own and one block of data with it. A released block keeps its name until the
heap has handed out another block.
-/

namespace HeapGuard.ProcessSession

inductive Role where
  | own
  | data
  deriving DecidableEq, Repr, Hashable

/-- A pointer in a step: null, a number, or a place relative to a named block. -/
inductive Pointer where
  | null
  | absolute (a : Nat)
  | relative (step : Nat) (role : Role) (offset : Int)
  deriving Hashable

structure NamedBlock where
  step : Nat
  role : Role
  addr : Nat
  size : Nat
  onHeap : Bool
  /-- If it was released, how many heap blocks had been handed out by then. -/
  releasedAt : Option Nat := none

namespace NamedBlock

def isReleased (b : NamedBlock) : Bool := b.releasedAt.isSome

def holds (b : NamedBlock) (a n : Nat) : Bool := b.addr ≤ a && a + n ≤ b.addr + b.size

def margin (b : NamedBlock) : Nat := if b.onHeap then RedZone.width else 0

/-- The `n` bytes at `a` lie in the block or the zones around it. -/
def surrounds (b : NamedBlock) (a n : Nat) : Bool :=
  b.addr ≤ a + b.margin && a + n ≤ b.addr + b.size + b.margin

end NamedBlock

structure Registry where
  blocks : List NamedBlock
  /-- The addresses of blocks allocated in bulk, by step. -/
  batches : List (Nat × List Nat)
  /-- How many heap blocks were handed out so far. -/
  handedOut : Nat

namespace Registry

def empty : Registry := ⟨[], [], 0⟩

/-- Enter a block; a heap block counts as handed out. -/
def add (r : Registry) (b : NamedBlock) : Registry :=
  { r with
    blocks := b :: r.blocks
    handedOut := if b.onHeap then r.handedOut + 1 else r.handedOut }

def release (r : Registry) (addr : Nat) : Registry :=
  { r with
    blocks := r.blocks.map fun b =>
      if b.addr == addr && !b.isReleased then { b with releasedAt := some r.handedOut } else b }

/-- A released block whose address the heap may have handed out again. -/
def isStale (r : Registry) (b : NamedBlock) : Bool :=
  match b.releasedAt with
  | some count => count < r.handedOut
  | none => false

def resolve (r : Registry) : Pointer → Option Nat
  | .null => some 0
  | .absolute a => some a
  | .relative step role offset => do
    let b ← r.blocks.find? fun b => b.step == step && b.role == role
    if r.isStale b then none else Memory.offset? b.addr offset

/-- The `n` bytes at `a` lie in one block, zones included, that is not released. -/
def reaches (r : Registry) (a n : Nat) : Bool :=
  r.blocks.any fun b => !b.isReleased && b.surrounds a n

def holds (r : Registry) (a n : Nat) : Bool :=
  r.blocks.any fun b => !b.isReleased && b.holds a n

/-- A string object can be read at `a`: aligned, in a block, and so is its text. -/
def holdsString (r : Registry) (m : Memory) (a : Nat) : Bool :=
  a % StringObject.alignment == 0 && r.holds a StringObject.headerSize &&
    let obj := StringObject.load m a
    obj.size == 0 || r.holds obj.data obj.len

def holdsText (r : Registry) (m : Memory) (a : Nat) : Bool :=
  r.blocks.any fun b =>
    !b.isReleased && b.holds a 1 && (m.read a (b.addr + b.size - a)).contains 0

def around? (r : Registry) (a : Nat) : Option NamedBlock :=
  (r.blocks.find? (·.addr == a)).or (r.blocks.find? (·.surrounds a 1))

end Registry

end HeapGuard.ProcessSession
