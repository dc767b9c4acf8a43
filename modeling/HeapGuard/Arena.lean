import HeapGuard.BlockSource

/-! # The arena

A block source over a fixed range of addresses. It can be told which of its calls
fail, it records every call, and if it reuses blocks, the block given back last
among those of the right size goes first.
-/

namespace HeapGuard

structure Block where
  addr : Nat
  size : Nat
  deriving DecidableEq, Repr

namespace Arena

def base : Nat := 0x200000000

def span : Nat := 0x100000

def holds (a n : Nat) : Bool := base ≤ a && a + n ≤ base + span

inductive Event where
  | alloc (bytes : Nat) (kind : Kind) (addr : Option Nat)
  | release (addr : Nat)
  deriving DecidableEq, Repr

end Arena

structure Arena where
  limit : Nat
  /-- The numbers of the calls that fail. -/
  failing : List Nat
  reuse : Bool
  calls : Nat
  used : Nat
  /-- The blocks handed out now. -/
  held : List Block
  /-- Blocks to be used again, the one given back last first. -/
  spare : List Block
  /-- The recorded calls, the last one first. -/
  events : List Arena.Event

namespace Arena

def new (limit : Nat) (failing : List Nat) (reuse : Bool) : Arena :=
  ⟨limit, failing, reuse, 0, 0, [], [], []⟩

/-- The bytes set aside for a request: at least one, in units of sixteen. -/
def need (bytes : Nat) : Nat := (max bytes 1 + 15) / 16 * 16

def take (s : Arena) (bytes : Nat) : Option (Block × Arena) :=
  let n := need bytes
  if s.failing.contains s.calls || s.limit < bytes then none
  else
    match s.spare.find? (·.size == n) with
    | some b => some (b, { s with spare := s.spare.erase b, held := b :: s.held })
    | none =>
      if s.used + n ≤ s.limit then
        let b : Block := ⟨base + s.used, n⟩
        some (b, { s with used := s.used + n, held := b :: s.held })
      else none

def alloc (s : Arena) (m : Memory) (bytes : Nat) (kind : Kind) : Option Nat × Arena × Memory :=
  let record (s : Arena) (addr : Option Nat) : Arena :=
    { s with calls := s.calls + 1, events := .alloc bytes kind addr :: s.events }
  match s.take bytes with
  | some (b, s) => (some b.addr, record s (some b.addr), m.fill b.addr b.size 0)
  | none => (none, record s none, m)

def release (s : Arena) (addr : Nat) : Arena :=
  let s := { s with events := .release addr :: s.events }
  match s.held.find? (·.addr == addr) with
  | some b =>
    { s with held := s.held.erase b, spare := if s.reuse then b :: s.spare else s.spare }
  | none => s

/-- The same arena, its record of calls emptied. -/
def forget (s : Arena) : Arena := { s with events := [] }

instance : BlockSource Arena where
  alloc := alloc
  release s m addr := (s.release addr, m)

end Arena

end HeapGuard
