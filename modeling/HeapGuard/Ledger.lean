import HeapGuard.Halt
import HeapGuard.Kind

/-! # The ledger of live blocks

A table of `N` slots that is probed in a row from a slot computed from the address.
A slot that lost its entry is vacated, not empty: a search passes it, an insertion
may take it. The ledger counts its entries and the bytes they stand for.
-/

namespace HeapGuard

/-- A block that was handed out and not given back. -/
structure Entry where
  addr : Nat
  size : Nat
  kind : Kind
  deriving DecidableEq, Repr, Hashable

inductive Slot where
  | empty
  | vacated
  | occupied (entry : Entry)
  deriving DecidableEq, Repr

def Slot.occupant : Slot → Option Entry
  | occupied e => some e
  | _ => none

structure Ledger (N : Nat) where
  slots : Vector Slot N
  live : Nat
  liveBytes : Nat

namespace Ledger

variable {N : Nat}

def empty (N : Nat) : Ledger N := ⟨Vector.replicate N .empty, 0, 0⟩

/-- The multiplier that spreads addresses over the slots. -/
def spread : Nat := 0x9E3779B97F4A7C15

/-- The slot at which the search for an address starts; there is none without slots. -/
def home (N a : Nat) : Except Trap (Fin N) :=
  if h : 0 < N then .ok ⟨a * spread % 0x10000000000000000 / 0x100000000 % N, Nat.mod_lt _ h⟩
  else .error .remainderByZero

def next (i : Fin N) : Fin N := ⟨(i + 1) % N, Nat.mod_lt _ i.pos⟩

/-- The first slot without an entry among the `k` probed from `i` on. -/
def freeFrom (slots : Vector Slot N) : (k : Nat) → Fin N → Option (Fin N)
  | 0, _ => none
  | k + 1, i =>
    match slots[i] with
    | .occupied _ => freeFrom slots k (next i)
    | _ => some i

/-- The first entry for `a` among the `k` slots probed from `i` on; an empty slot ends the search. -/
def findFrom (slots : Vector Slot N) (a : Nat) : (k : Nat) → Fin N → Option (Fin N × Entry)
  | 0, _ => none
  | k + 1, i =>
    match slots[i] with
    | .occupied e => if e.addr = a then some (i, e) else findFrom slots a k (next i)
    | .vacated => findFrom slots a k (next i)
    | .empty => none

def find (t : Ledger N) (a : Nat) : Except Trap (Option (Fin N × Entry)) := do
  let i ← home N a
  return findFrom t.slots a N i

def lookup (t : Ledger N) (a : Nat) : Except Trap (Option Entry) := do
  return (← t.find a).map Prod.snd

/-- A change to one slot, with the totals after it. -/
inductive Change (N : Nat) where
  | enter (slot : Fin N) (e : Entry) (live liveBytes : Nat)
  | vacate (slot : Fin N) (live liveBytes : Nat)

def apply (t : Ledger N) : Change N → Ledger N
  | .enter j e live liveBytes => ⟨t.slots.set j (.occupied e), live, liveBytes⟩
  | .vacate j live liveBytes => ⟨t.slots.set j .vacated, live, liveBytes⟩

/-- The change that enters a block; none if every slot is occupied. -/
def entering (t : Ledger N) (e : Entry) : Except Trap (Option (Change N)) := do
  match freeFrom t.slots N (← home N e.addr) with
  | none => return none
  | some j => return some (.enter j e (t.live + 1) (← addChecked t.liveBytes e.size))

/-- The change that strikes the entry for an address, and that entry; none if there is none. -/
def striking (t : Ledger N) (a : Nat) : Except Trap (Option (Entry × Change N)) := do
  match ← t.find a with
  | none => return none
  | some (j, e) =>
    return some (e, .vacate j (← subChecked t.live 1) (← subChecked t.liveBytes e.size))

/-- Enter a block; false if every slot is occupied. -/
def insert (t : Ledger N) (e : Entry) : Except Trap (Bool × Ledger N) := do
  match ← t.entering e with
  | none => return (false, t)
  | some c => return (true, t.apply c)

def remove (t : Ledger N) (a : Nat) : Except Trap (Option Entry × Ledger N) := do
  match ← t.striking a with
  | none => return (none, t)
  | some (e, c) => return (some e, t.apply c)

def entries (t : Ledger N) : List Entry := t.slots.toList.filterMap Slot.occupant

inductive Command where
  | insert (e : Entry)
  | remove (a : Nat)
  | lookup (a : Nat)
  | entries

inductive Answer where
  | inserted (done : Bool)
  | found (entry : Option Entry)
  | entries (all : List Entry)

def perform (t : Ledger N) : Command → Except Trap (Answer × Ledger N)
  | .insert e => do
    let (done, t) ← t.insert e
    return (.inserted done, t)
  | .remove a => do
    let (e, t) ← t.remove a
    return (.found e, t)
  | .lookup a => do return (.found (← t.lookup a), t)
  | .entries => return (.entries t.entries, t)

structure Record where
  answer : Answer
  live : Nat
  liveBytes : Nat

def performAll (t : Ledger N) : List Command → List (Except Trap Record)
  | [] => []
  | c :: cs =>
    match t.perform c with
    | .error trap => [.error trap]
    | .ok (answer, t) => .ok ⟨answer, t.live, t.liveBytes⟩ :: performAll t cs

end Ledger

end HeapGuard
