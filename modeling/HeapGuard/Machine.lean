import HeapGuard.Halt
import HeapGuard.Memory
import HeapGuard.Settings
import HeapGuard.Stream

/-! # The machine

Everything an operation can change: memory, the state of a heap, the two output
streams and the settings. An action may halt; what it changed before stays changed.
-/

namespace HeapGuard

structure Machine (H : Type) where
  memory : Memory
  heap : H
  out : Stream
  err : Stream
  settings : Settings

/-- A machine with zeroed memory and streams that take everything. -/
def Machine.start {H : Type} (heap : H) : Machine H :=
  ⟨.zeroed, heap, .accepting, .accepting, .default⟩

abbrev Action (H : Type) := EStateM Halt (Machine H)

namespace Action

variable {H α : Type}

def memory : Action H Memory := return (← get).memory

def modifyMemory (f : Memory → Memory) : Action H Unit :=
  modify fun m => { m with memory := f m.memory }

def writeOut (b : Bytes) : Action H Int :=
  modifyGet fun m =>
    let (status, out) := m.out.write b
    (status, { m with out })

/-- Write to the error stream; whether that succeeds does not matter. -/
def writeErr (b : Bytes) : Action H Unit :=
  modify fun m => { m with err := (m.err.write b).2 }

def tell (pieces : List Bytes) : Action H Unit := pieces.forM writeErr

def abort : Action H α := throw .abort

def orTrap : Except Trap α → Action H α
  | .ok a => pure a
  | .error cause => throw (.trap cause)

end Action

end HeapGuard
