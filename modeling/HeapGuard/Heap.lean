import HeapGuard.BlockSource
import HeapGuard.Failure
import HeapGuard.Machine

/-! # Heaps

What every heap offers, and the requests built on it: a block of at least one byte
or a failure, and a scratch block that is given back when its use ends.
-/

namespace HeapGuard

class Heap (H : Type) where
  /-- The address of a zero-filled block, if there is one. -/
  allocZeroed : (bytes : Nat) → Kind → Action H (Option Nat)
  release : (addr : Nat) → Action H Unit

/-- The heap that passes every request on to its source. -/
structure Plain (S : Type) where
  source : S

namespace Plain

variable {S : Type} [BlockSource S]

instance : Heap (Plain S) where
  allocZeroed bytes kind := modifyGet fun m =>
    let (block, source, memory) := BlockSource.alloc m.heap.source m.memory bytes kind
    (block, { m with heap := ⟨source⟩, memory })
  release addr := modify fun m =>
    let (source, memory) := BlockSource.release m.heap.source m.memory addr
    { m with heap := ⟨source⟩, memory }

end Plain

namespace Heap

variable {H α : Type} [Heap H]

def alloc (bytes : Nat) (kind : Kind) : Action H (Except Failure Nat) := do
  match ← allocZeroed (max bytes 1) kind with
  | some addr => return .ok addr
  | none => return .error (.allocation bytes)

/-- A block for temporary use. Its capacity is what was asked for, be it zero. -/
structure Scratch where
  addr : Nat
  capacity : Nat

def openScratch (capacity : Nat) : Action H (Except Failure Scratch) := do
  match ← alloc capacity .scratch with
  | .ok addr => return .ok ⟨addr, capacity⟩
  | .error e => return .error e

def closeScratch (s : Scratch) : Action H Unit := release s.addr

def withScratch (capacity : Nat) (body : Scratch → Action H α) : Action H (Except Failure α) := do
  match ← openScratch capacity with
  | .error e => return .error e
  | .ok s =>
    let a ← body s
    closeScratch s
    return .ok a

end Heap

end HeapGuard
