import HeapGuard.Clock
import HeapGuard.Guarded
import HeapGuard.StringObject

/-! # Calls of compiled programs

The calls that compiled programs make. A program cannot deal with a lack of memory,
so where a request fails for that reason the run ends with a report.
-/

namespace HeapGuard.Program

variable {H α : Type} [Heap H]

def orDie : Except Failure α → Action H α
  | .ok a => pure a
  | .error (.allocation bytes) => Action.die (.outOfMemory bytes)
  | .error f => Action.die (.failure f)

def alloc (bytes : Nat) : Action H Nat := do orDie (← Heap.alloc bytes .buffer)

def free (p : Nat) : Action H Unit := if p = 0 then return else Heap.release p

def maxCount : Nat := 0x7FFFFFFF

/-- Print the text of an object, or an empty line for address zero. A failed or cut write is
only warned of. -/
def print (obj : Nat) : Action H Nat := do
  let m ← get
  let text := if obj = 0 then [] else (StringObject.load m.memory obj).bytes m.memory
  match ← Line.print text m.settings.scratchSize with
  | .ok written => return min written maxCount
  | .error (.allocation bytes) => Action.die (.outOfMemory bytes)
  | .error f =>
    Action.warn f
    return min f.written maxCount

def textLength (p : Nat) : Action H Nat := return (← Action.memory).textLength p

def stringLength (obj : Nat) : Action H Nat :=
  return (StringObject.load (← Action.memory) obj).len

/-- An object for the text at an address, and none for address zero. -/
def newString (data : Nat) : Action H Nat := do
  if data = 0 then return 0
  orDie (← StringObject.ofText data)

def ofInt32 (value : Int32) : Action H Nat := do orDie (← StringObject.ofInt32 value)

def toInt32 (obj : Nat) : Action H Int32 := do
  orDie (← (StringObject.load (← Action.memory) obj).toInt32)

/-- Give back the block at an address; false for address zero. -/
def delete (p : Nat) : Action H Bool := do
  if p = 0 then return false
  Heap.release p
  return true

/-- Set the size of scratch blocks; the answer is the size taken. -/
def setScratchSize (bytes : Nat) : Action H Nat := do
  let size := Settings.clampScratch bytes
  modify fun m => { m with settings := { m.settings with scratchSize := size } }
  return size

def scratchSize : Action H Nat := return (← get).settings.scratchSize

/-- A call, with pointers of type `P`. -/
inductive Call (P : Type) where
  | alloc (bytes : Nat)
  | free (p : P)
  | print (obj : P)
  | sleep (milliseconds : Int32)
  | textLength (p : P)
  | stringLength (obj : P)
  | newString (data : P)
  | ofInt32 (value : Int32)
  | toInt32 (obj : P)
  | deleteString (obj : P)
  | deleteArray (p : P)
  | setScratchSize (bytes : Nat)
  | scratchSize
  | reportLeaks
  deriving Hashable

inductive Reply where
  | done
  | address (a : Nat)
  | number (n : Int)
  | flag (b : Bool)
  deriving DecidableEq, Repr

def Call.run {N : Nat} {S : Type} [BlockSource S] : Call Nat → Action (Guarded N S) Reply
  | alloc bytes => do return .address (← Program.alloc bytes)
  | free p => do
    Program.free p
    return .done
  | print obj => do return .number (← Program.print obj)
  | sleep ms => return .number (Clock.sleep ms)
  | textLength p => do return .number (← Program.textLength p)
  | stringLength obj => do return .number (← Program.stringLength obj)
  | newString data => do return .address (← Program.newString data)
  | ofInt32 value => do return .address (← Program.ofInt32 value)
  | toInt32 obj => do return .number (← Program.toInt32 obj).toInt
  | deleteString obj => do return .flag (← Program.delete obj)
  | deleteArray p => do return .flag (← Program.delete p)
  | setScratchSize bytes => do return .number (← Program.setScratchSize bytes)
  | scratchSize => do return .number (← Program.scratchSize)
  | reportLeaks => do return .number (← Guarded.reportLeaks)

end HeapGuard.Program
