import HeapGuard.Machine
import HeapGuard.Numeral.Decimal

/-! # The console

The standard descriptors, looked up by selector and remembered, and writes to a
descriptor.
-/

namespace HeapGuard

namespace Descriptor

def stdout : Int := 1

def stderr : Int := 2

def ofSelector (selector : Int) : Option Int :=
  if selector = -10 then some 0
  else if selector = -11 then some stdout
  else if selector = -12 then some stderr
  else none

/-- A selector whose descriptor is remembered once it has been found. -/
structure Cached where
  selector : Int
  known : Option Int

def Cached.new (selector : Int) : Cached := ⟨selector, none⟩

def Cached.get (c : Cached) : Option Int × Cached :=
  match c.known with
  | some d => (some d, c)
  | none =>
    let found := ofSelector c.selector
    (found, { c with known := found })

/-- The status of a write to a descriptor that is not open. -/
def badDescriptor : Int := -9

def write {H : Type} (d : Int) (b : Bytes) : Action H Int :=
  if d = stdout then Action.writeOut b
  else if d = stderr then modifyGet fun m =>
    let (status, err) := m.err.write b
    (status, { m with err })
  else return badDescriptor

def inspect (d : Int) : Bytes :=
  .ofText "Console \x7b fd: " ++ Numeral.signed d ++ .ofText " \x7d"

end Descriptor

inductive Target where
  | capture
  | closed
  | readOnly
  | full
  | broken
  deriving Hashable

/-- A capturing target takes everything; each of the others fails every write in its own way. -/
def Target.stream : Target → Stream
  | capture => .accepting
  | closed => .fixed (-9)
  | readOnly => .fixed (-9)
  | full => .fixed (-28)
  | broken => .fixed (-32)

end HeapGuard
