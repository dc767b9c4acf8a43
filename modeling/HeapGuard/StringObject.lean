import HeapGuard.Line

/-! # String objects

A string object is a header of sixteen bytes: a length and the address of the text.
It does not own the text. Integers are turned into text and back.
-/

namespace HeapGuard

structure StringObject where
  len : Nat
  data : Nat
  deriving DecidableEq, Repr

namespace StringObject

def headerSize : Nat := 16

def alignment : Nat := 8

def intBufferSize : Nat := 17

def load (m : Memory) (a : Nat) : StringObject :=
  ⟨m.readWord a, m.readWord (a + 8)⟩

def store (s : StringObject) (m : Memory) (a : Nat) : Memory :=
  (m.writeWord a s.len).writeWord (a + 8) s.data

def isEmpty (s : StringObject) : Bool := s.len == 0

/-- An object without an address has no bytes, whatever its length. -/
def size (s : StringObject) : Nat := if s.data = 0 then 0 else s.len

def bytes (s : StringObject) (m : Memory) : Bytes := m.read s.data s.size

variable {H : Type} [Heap H]

def ofText (data : Nat) : Action H (Except Failure Nat) := do
  let len := (← Action.memory).textLength data
  match ← Heap.alloc headerSize .object with
  | .error e => return .error e
  | .ok obj =>
    Action.modifyMemory fun m => store ⟨len, data⟩ m obj
    return .ok obj

def intText (value : Int32) : Action H (Except Failure Nat) := do
  match ← Heap.alloc intBufferSize .buffer with
  | .error e => return .error e
  | .ok buf =>
    Action.modifyMemory fun m => m.storeText buf intBufferSize (Numeral.signed value.toInt)
    return .ok buf

/-- An object for the decimal form of an integer. If there is no block for the object, the block
of the text is given back. -/
def ofInt32 (value : Int32) : Action H (Except Failure Nat) := do
  match ← intText value with
  | .error e => return .error e
  | .ok data =>
    match ← ofText data with
    | .ok obj => return .ok obj
    | .error e =>
      Heap.release data
      return .error e

/-- The integer at the start of the text, read from a copy that ends in a zero byte. -/
def toInt32 (s : StringObject) : Action H (Except Failure Int32) :=
  Heap.withScratch (s.size + 1) fun scratch => do
    Action.modifyMemory fun m => m.write scratch.addr (s.bytes m)
    return Numeral.toInt32 ((← Action.memory).text scratch.addr)

end StringObject

end HeapGuard
