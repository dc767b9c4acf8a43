import HeapGuard.Kind
import HeapGuard.Memory

/-! # Block sources

A block source hands out zero-filled blocks of memory and takes them back. It never
halts. It may write to memory whenever it is called.
-/

namespace HeapGuard

class BlockSource (S : Type) where
  /-- The address of a zeroed block of so many bytes, if one can be had. -/
  alloc : S → Memory → (bytes : Nat) → Kind → Option Nat × S × Memory
  release : S → Memory → (addr : Nat) → S × Memory

end HeapGuard
