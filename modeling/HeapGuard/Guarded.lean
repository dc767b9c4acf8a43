import HeapGuard.Heap
import HeapGuard.Report

/-! # The guarded heap

A heap that surrounds every block of its source with red zones and keeps a ledger of
the blocks it handed out. It takes back only live blocks with intact zones. Each
operation is made of steps that are atomic on their own, so that threads may be
interleaved between them.
-/

namespace HeapGuard

structure Guarded (N : Nat) (S : Type) where
  source : S
  ledger : Ledger N

namespace Guarded

variable {N : Nat} {S : Type} [BlockSource S]

def new (N : Nat) (source : S) : Guarded N S := ⟨source, .empty N⟩

def amend (c : Ledger.Change N) : Action (Guarded N S) Unit :=
  modify fun m => { m with heap := { m.heap with ledger := m.heap.ledger.apply c } }

def reserve (bytes : Nat) (kind : Kind) : Action (Guarded N S) (Option Nat) :=
  modifyGet fun m =>
    let (block, source, memory) := BlockSource.alloc m.heap.source m.memory bytes kind
    (block, { m with heap := { m.heap with source }, memory })

def giveBack (base : Nat) : Action (Guarded N S) Unit :=
  modify fun m =>
    let (source, memory) := BlockSource.release m.heap.source m.memory base
    { m with heap := { m.heap with source }, memory }

/-- Enter a block in the ledger; false if the ledger is full. -/
def enroll (e : Entry) : Action (Guarded N S) Bool := do
  match ← Action.orTrap ((← get).heap.ledger.entering e) with
  | none => return false
  | some c =>
    amend c
    return true

/-- Strike the block at an address from the ledger, if it is live and its zones are intact.
The answer is its size. -/
def strike (addr : Nat) : Action (Guarded N S) (Except Fault Nat) := do
  match ← Action.orTrap ((← get).heap.ledger.lookup addr) with
  | none => return .error (.unknown addr)
  | some e =>
    match RedZone.check (← get).memory (addr - RedZone.width) e.size with
    | some damage => return .error (.damaged addr e.size damage)
    | none =>
      if let some (_, c) ← Action.orTrap ((← get).heap.ledger.striking addr) then amend c
      return .ok e.size

def allocZeroed (bytes : Nat) (kind : Kind) : Action (Guarded N S) (Option Nat) := do
  let total := bytes + 2 * RedZone.width
  if Memory.top ≤ total then return none
  match ← reserve total kind with
  | none => return none
  | some base =>
    Action.modifyMemory fun m => RedZone.fill m base bytes
    let user := base + RedZone.width
    if ← enroll ⟨user, bytes, kind⟩ then return some user
    giveBack base
    return none

def tryRelease (addr : Nat) : Action (Guarded N S) (Except Fault Unit) := do
  match ← strike addr with
  | .error fault => return .error fault
  | .ok size =>
    Action.modifyMemory fun m => RedZone.poison m addr size
    giveBack (addr - RedZone.width)
    return .ok ()

/-- Take a block back or end the run with a report; nothing happens at address zero. -/
def release (addr : Nat) : Action (Guarded N S) Unit := do
  if addr = 0 then return
  match ← tryRelease addr with
  | .ok () => return
  | .error fault => Action.die (.fault fault)

instance : Heap (Guarded N S) := ⟨allocZeroed, release⟩

def isLive (addr : Nat) : Action (Guarded N S) Bool := do
  return (← Action.orTrap ((← get).heap.ledger.lookup addr)).isSome

def reportLeaks : Action (Guarded N S) Nat := do
  let ledger := (← get).heap.ledger
  if 0 < ledger.live then Action.tell (Report.leaks ledger.entries ledger.live)
  return ledger.live

end Guarded

end HeapGuard
