import HeapGuard.Halt
import HeapGuard.Memory

/-! # Red zones

A guarded block has sixteen canary bytes on both sides of the bytes its user sees.
Damage to a zone is a byte in it that is no canary. A block that is given back has
its user bytes poisoned.
-/

namespace HeapGuard.RedZone

def width : Nat := 16

def canary : UInt8 := 0xAB

def poisoned : UInt8 := 0xFE

/-- The bytes of a block with `size` user bytes and its two zones. -/
def totalSize (size : Nat) : Except Trap Nat := do
  let front ← addChecked width size
  addChecked front width

def fill (m : Memory) (base size : Nat) : Memory :=
  (m.fill base width canary).fill (base + width + size) width canary

structure Damage where
  before : Bool
  after : Bool
  deriving DecidableEq, Repr, Hashable

def intact (m : Memory) (a : Nat) : Bool :=
  (m.read a width).all (· == canary)

def check (m : Memory) (base size : Nat) : Option Damage :=
  let before := intact m base
  let after := intact m (base + width + size)
  if before && after then none else some ⟨!before, !after⟩

def poison (m : Memory) (user size : Nat) : Memory :=
  m.fill user size poisoned

inductive Command where
  | fill
  | poison
  | check
  | set (offset : Nat) (b : UInt8)

inductive Answer where
  | block (bytes : Bytes)
  | checked (damage : Option Damage)
  | set
  | outside

/-- What a command does to the block of `size` user bytes, `total` bytes in all, that starts at
`base`. -/
def Command.effect (base size total : Nat) (m : Memory) : Command → Memory
  | fill => RedZone.fill m base size
  | poison => RedZone.poison m (base + width) size
  | check => m
  | set offset b => if offset < total then m.set (base + offset) b else m

/-- One command on a block of `size` user bytes that starts at address zero. -/
def perform (size total : Nat) (m : Memory) (c : Command) : Answer × Memory :=
  let m := c.effect 0 size total m
  match c with
  | .fill | .poison => (.block (m.read 0 total), m)
  | .check => (.checked (check m 0 size), m)
  | .set offset _ => (if offset < total then .set else .outside, m)

def performAll (size total : Nat) (m : Memory) : List Command → List Answer
  | [] => []
  | c :: cs =>
    let (answer, m) := perform size total m c
    answer :: performAll size total m cs

def session (size : Nat) (cs : List Command) : Except Trap (List Answer) := do
  let total ← totalSize size
  return performAll size total .zeroed cs

end HeapGuard.RedZone
