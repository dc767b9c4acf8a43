import HeapGuard.Arena
import HeapGuard.Guarded
import HeapGuard.StringObject

/-! # Sessions on an arena

A session is a list of steps on a heap over the arena, plain or guarded. A step names
pointers by the steps that gave them. A step that would touch memory outside the arena
is refused and changes nothing; a step that halts ends the session.
-/

namespace HeapGuard.HeapSession

open Heap (Scratch)

/-- An address in a step: a number, or the pointer that an earlier step gave, moved. -/
inductive Place where
  | absolute (a : Nat)
  | relative (step : Nat) (offset : Int)

inductive Step where
  | alloc (bytes : Nat) (kind : Kind)
  | free (p : Place)
  | release (p : Place)
  | tryRelease (p : Place)
  | isLive (p : Place)
  | reportLeaks
  | write (p : Place) (bytes : Bytes)
  | read (p : Place) (len : Nat)
  | openScratch (len : Nat)
  | readScratch (opener : Nat)
  | writeScratch (opener offset : Nat) (bytes : Bytes)
  | closeScratch (opener : Nat)
  | intText (value : Int32)
  | textLength (p : Place)
  | stringOf (p : Place)
  | string (p : Place)
  | stringToInt (p : Place)
  | print (text : Bytes) (scratchSize : Nat) (stream : Stream)

inductive Answer where
  | done
  | refused
  | number (n : Nat)
  | flag (b : Bool)
  | bytes (b : Bytes)
  | released (result : Except Fault Unit)
  | outcome (result : Except Failure Int)
  | scratch (result : Except Failure Scratch)
  | string (obj : StringObject) (bytes : Bytes)
  | printed (result : Except Failure Nat) (writes : List Bytes)

structure Guard (H : Type) where
  tryRelease : Nat → Action H (Except Fault Unit)
  isLive : Nat → Action H Bool
  reportLeaks : Action H Nat
  ledgerTotals : H → Nat × Nat

/-- How a session looks into its heap. -/
structure Watch (H : Type) where
  arena : H → Arena
  setArena : H → Arena → H
  guard : Option (Guard H)

/-- What a session keeps beside the machine: the pointer of each step, and the open scratch
blocks by the steps that opened them. -/
structure Book where
  yields : Array (Option Nat)
  scratches : List (Nat × Scratch)

namespace Book

def resolve (k : Book) : Place → Option Nat
  | .absolute a => some a
  | .relative i offset => do
    Memory.offset? (← (← k.yields[i]?)) offset

def scratch? (k : Book) (opener : Nat) : Option Scratch := k.scratches.lookup opener

/-- Enter the pointer of the step just made. -/
def yield (k : Book) (p : Option Nat) : Book := { k with yields := k.yields.push p }

end Book

def readableText (m : Memory) (a : Nat) : Bool :=
  Arena.base ≤ a && m.findNul a < Arena.base + Arena.span

/-- A string object can be read at `a`: aligned, in the arena, and so is its text. -/
def readableString (m : Memory) (a : Nat) : Bool :=
  a % StringObject.alignment == 0 && Arena.holds a StringObject.headerSize &&
    let obj := StringObject.load m a
    obj.size == 0 || Arena.holds obj.data obj.len

variable {H : Type} [Heap H]

def plainly (k : Book) (a : Answer) : Answer × Book := (a, k.yield none)

def pointing (k : Book) (r : Except Failure Nat) : Answer × Book :=
  (.outcome (r.map Int.ofNat), k.yield r.toOption)

def perform (w : Watch H) (k : Book) : Step → Action H (Answer × Book)
  | .alloc bytes kind => do return pointing k (← Heap.alloc bytes kind)
  | .free p =>
    match k.resolve p with
    | none | some 0 => return plainly k .refused
    | some a => do
      Heap.release a
      return plainly k .done
  | .release p =>
    match k.resolve p with
    | none => return plainly k .refused
    | some a => do
      Heap.release a
      return plainly k .done
  | .tryRelease p =>
    match w.guard, k.resolve p with
    | some g, some a => do return plainly k (.released (← g.tryRelease a))
    | _, _ => return plainly k .refused
  | .isLive p =>
    match w.guard, k.resolve p with
    | some g, some a => do return plainly k (.flag (← g.isLive a))
    | _, _ => return plainly k .refused
  | .reportLeaks =>
    match w.guard with
    | some g => do return plainly k (.number (← g.reportLeaks))
    | none => return plainly k .refused
  | .write p bytes =>
    match k.resolve p with
    | none => return plainly k .refused
    | some a => do
      if !Arena.holds a bytes.length then return plainly k .refused
      Action.modifyMemory (·.write a bytes)
      return plainly k .done
  | .read p len =>
    match k.resolve p with
    | none => return plainly k .refused
    | some a => do
      if !Arena.holds a len then return plainly k .refused
      return plainly k (.bytes ((← Action.memory).read a len))
  | .openScratch len => do
    let r ← Heap.openScratch len
    let scratches := match r with
      | .ok s => (k.yields.size, s) :: k.scratches
      | .error _ => k.scratches
    return (.scratch r, { k with scratches }.yield (r.toOption.map Scratch.addr))
  | .readScratch i =>
    match k.scratch? i with
    | none => return plainly k .refused
    | some s => do return plainly k (.bytes ((← Action.memory).read s.addr s.capacity))
  | .writeScratch i offset bytes =>
    match k.scratch? i with
    | none => return plainly k .refused
    | some s => do
      if s.capacity < offset + bytes.length then return plainly k .refused
      Action.modifyMemory (·.write (s.addr + offset) bytes)
      return plainly k .done
  | .closeScratch i =>
    match k.scratch? i with
    | none => return plainly k .refused
    | some s => do
      Heap.closeScratch s
      return plainly { k with scratches := k.scratches.filter (·.1 != i) } .done
  | .intText value => do return pointing k (← StringObject.intText value)
  | .textLength p =>
    match k.resolve p with
    | none => return plainly k .refused
    | some a => do
      let m ← Action.memory
      if !readableText m a then return plainly k .refused
      return plainly k (.number (m.textLength a))
  | .stringOf p =>
    match k.resolve p with
    | none => return plainly k .refused
    | some a => do
      if !readableText (← Action.memory) a then return plainly k .refused
      return pointing k (← StringObject.ofText a)
  | .string p =>
    match k.resolve p with
    | none => return plainly k .refused
    | some a => do
      let m ← Action.memory
      if !readableString m a then return plainly k .refused
      let obj := StringObject.load m a
      return plainly k (.string obj (obj.bytes m))
  | .stringToInt p =>
    match k.resolve p with
    | none => return plainly k .refused
    | some a => do
      let m ← Action.memory
      if !readableString m a then return plainly k .refused
      return plainly k (.outcome ((← (StringObject.load m a).toInt32).map Int32.toInt))
  | .print text scratchSize stream => do
    modify fun m => { m with out := stream }
    let r ← Line.print text scratchSize
    return plainly k (.printed r ((← get).out.writes.reverse.map Write.bytes))

/-- What is seen of one step: its answer or how it halted, the calls to the arena, the text on
the error stream, and the totals of the ledger after it. -/
structure Record where
  result : Except Halt Answer
  events : List Arena.Event
  err : Bytes
  totals : Option (Nat × Nat)

/-- The machine before a step, with no record of what came earlier. -/
def ready (w : Watch H) (m : Machine H) : Machine H :=
  { m with
    heap := w.setArena m.heap (w.arena m.heap).forget
    err := m.err.forget }

def record (w : Watch H) (after : Machine H) (result : Except Halt Answer) : Record :=
  { result
    events := (w.arena after.heap).events.reverse
    err := after.err.received
    totals := w.guard.map (·.ledgerTotals after.heap) }

def runSteps (w : Watch H) (m : Machine H) (k : Book) : List Step → List Record
  | [] => []
  | s :: ss =>
    match (perform w k s).run (ready w m) with
    | .ok (answer, k) after => record w after (.ok answer) :: runSteps w after k ss
    | .error halt after => [record w after (.error halt)]

def runPlain (arena : Arena) (steps : List Step) : List Record :=
  let w : Watch (Plain Arena) := ⟨Plain.source, fun _ a => ⟨a⟩, none⟩
  runSteps w (.start ⟨arena⟩) ⟨#[], []⟩ steps

def runGuarded (N : Nat) (arena : Arena) (steps : List Step) : List Record :=
  let guard : Guard (Guarded N Arena) :=
    { tryRelease := Guarded.tryRelease
      isLive := Guarded.isLive
      reportLeaks := Guarded.reportLeaks
      ledgerTotals := fun h => (h.ledger.live, h.ledger.liveBytes) }
  let w : Watch (Guarded N Arena) := ⟨Guarded.source, fun h a => { h with source := a }, some guard⟩
  runSteps w (.start (.new N arena)) ⟨#[], []⟩ steps

end HeapGuard.HeapSession
