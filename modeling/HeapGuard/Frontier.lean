import HeapGuard.BlockSource

/-! # The frontier

A block source that never uses an address twice: each block lies beyond all earlier
ones, with a wide gap in front of it. A seed decides where the first block lies and
how wide the gaps are. Only requests of absurd size are refused.
-/

namespace HeapGuard

structure Frontier where
  /-- No block handed out so far reaches this address. -/
  edge : Nat
  /-- Decides the width of the next gap. -/
  seed : UInt64

namespace Frontier

def origin : Nat := 0x555560000000

def seeded (seed : UInt64) : Frontier := ⟨origin + (seed >>> 36).toNat * 4096, seed⟩

def start : Frontier := seeded 0

def minGap : Nat := 0x400000

def hugeSize : Nat := 0x100000000000000

/-- The seed after this one, in a sequence that visits every word. -/
def nextSeed (seed : UInt64) : UInt64 := seed * 6364136223846793005 + 1442695040888963407

/-- The address of the next block, a multiple of sixteen. -/
def nextAddr (s : Frontier) : Nat :=
  ((s.edge + minGap) / 16 + (nextSeed s.seed >>> 46).toNat + 1) * 16

def alloc (s : Frontier) (m : Memory) (bytes : Nat) (_ : Kind) : Option Nat × Frontier × Memory :=
  let addr := s.nextAddr
  if bytes < hugeSize ∧ addr + bytes < Memory.top then
    (some addr, ⟨addr + max bytes 1, nextSeed s.seed⟩, m.fill addr bytes 0)
  else (none, s, m)

/-- Blocks given back are never used again. -/
instance : BlockSource Frontier where
  alloc := alloc
  release s m _ := (s, m)

end Frontier

end HeapGuard
