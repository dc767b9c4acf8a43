import HeapGuard.Frontier
import HeapGuard.StringObject

/-! # Inspections

Single questions about texts and string objects, each asked of a fresh machine whose
heap never uses an address twice.
-/

namespace HeapGuard.Inspection

abbrev Fresh := Plain Frontier

/-- Where a text under inspection is put. -/
def textAddress : Nat := 0x10000

def machineWith (text : Bytes) : Machine Fresh :=
  let m : Machine Fresh := .start ⟨.start⟩
  { m with memory := m.memory.write textAddress text }

/-- The length of the text from an offset on; none behind the zero byte that ends it. -/
def textLength (text : Bytes) (offset : Nat) : Option Nat :=
  if offset ≤ text.length then
    some ((machineWith (text ++ [0])).memory.textLength (textAddress + offset))
  else none

structure StringView where
  len : Nat
  isEmpty : Bool
  bytes : Bytes
  value : Except Halt (Except Failure Int32)

def view (m : Machine Fresh) (obj : StringObject) : StringView where
  len := obj.len
  isEmpty := obj.isEmpty
  bytes := obj.bytes m.memory
  value := match obj.toInt32.run m with
    | .ok r _ => .ok r
    | .error halt _ => .error halt

/-- An object of the given length on given data, or on none; none if the data is too short. -/
def stringObject (data : Option Bytes) (len : Nat) : Option StringView :=
  match data with
  | none => some (view (machineWith []) ⟨len, 0⟩)
  | some bytes =>
    if len ≤ bytes.length then some (view (machineWith bytes) ⟨len, textAddress⟩) else none

def intObject (value : Int32) : Action Fresh (Except Failure (Bytes × StringView)) := do
  match ← StringObject.intText value with
  | .error f => return .error f
  | .ok buf =>
    match ← StringObject.ofText buf with
    | .error f => return .error f
    | .ok obj =>
      let m ← get
      return .ok (m.memory.read buf StringObject.intBufferSize,
        view m (StringObject.load m.memory obj))

def int (value : Int32) : Except Halt (Except Failure (Bytes × StringView)) :=
  match (intObject value).run (.start ⟨.start⟩) with
  | .ok r _ => .ok r
  | .error halt _ => .error halt

end HeapGuard.Inspection
