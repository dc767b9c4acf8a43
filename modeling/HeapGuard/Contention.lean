import HeapGuard.Frontier
import HeapGuard.Guarded

/-! # Threads on one guarded heap

Threads allocate and give back blocks of one guarded heap at the same time. Between
the atomic steps of one thread any step of the others may happen.
-/

namespace HeapGuard.Contention

inductive Job where
  | alloc (bytes : Nat) (kind : Kind)
  | release (addr : Nat)

inductive Result where
  | allocated (addr : Option Nat)
  | released (result : Except Fault Unit)

/-- Where a thread stands in its job. -/
inductive Phase where
  | ready (job : Job)
  /-- It has a block from the source, its zones not yet written. -/
  | reserved (base bytes : Nat) (kind : Kind)
  | filled (base bytes : Nat) (kind : Kind)
  /-- The ledger was full. -/
  | refused (base : Nat)
  /-- The block is struck from the ledger, its bytes not yet poisoned. -/
  | struck (addr size : Nat)
  | poisoned (addr : Nat)
  | done (result : Result)

variable {N : Nat} {S : Type} [BlockSource S]

def Phase.step : Phase → Action (Guarded N S) Phase
  | ready (.alloc bytes kind) => do
    let total := bytes + 2 * RedZone.width
    if Memory.top ≤ total then return done (.allocated none)
    match ← Guarded.reserve total kind with
    | none => return done (.allocated none)
    | some base => return reserved base bytes kind
  | reserved base bytes kind => do
    Action.modifyMemory fun m => RedZone.fill m base bytes
    return filled base bytes kind
  | filled base bytes kind => do
    let user := base + RedZone.width
    if ← Guarded.enroll ⟨user, bytes, kind⟩ then return done (.allocated (some user))
    return refused base
  | refused base => do
    Guarded.giveBack base
    return done (.allocated none)
  | ready (.release addr) => do
    match ← Guarded.strike addr with
    | .error fault => return done (.released (.error fault))
    | .ok size => return struck addr size
  | struck addr size => do
    Action.modifyMemory fun m => RedZone.poison m addr size
    return poisoned addr
  | poisoned addr => do
    Guarded.giveBack (addr - RedZone.width)
    return done (.released (.ok ()))
  | done result => return done result

def step (threads : List Phase) (i : Nat) : Action (Guarded N S) (List Phase) := do
  match threads[i]? with
  | none => return threads
  | some t => return threads.set i (← t.step)

def run (threads : List Phase) (schedule : List Nat) : Action (Guarded N S) (List Phase) :=
  schedule.foldlM step threads

def maxSteps : Nat := 4

/-- Run all jobs to their end, one step of every thread in turn. -/
def runAll (jobs : List Job) : Action (Guarded N S) (List Phase) :=
  run (jobs.map .ready) (List.replicate maxSteps (List.range jobs.length)).flatten

def Phase.hasReleased : Phase → Bool
  | done (.released (.ok ())) => true
  | _ => false

/-- All threads give the same fresh block back; the answer is how many of them did, or none if
there was no block. -/
def raceRound (threads size : Nat) : Action (Guarded N S) (Option Nat) := do
  match ← Heap.alloc size .buffer with
  | .error _ => return none
  | .ok addr =>
    let ends ← runAll (List.replicate threads (.release addr))
    return some (ends.countP Phase.hasReleased)

/-- The counts of so many rounds after those in `counts`, up to the first round without a block. -/
def raceFrom (threads size : Nat) : (rounds : Nat) → (counts : List Nat) →
    Action (Guarded N S) (List Nat)
  | 0, counts => return counts.reverse
  | rounds + 1, counts => do
    match ← raceRound threads size with
    | none => return counts.reverse
    | some n => raceFrom threads size rounds (n :: counts)

def race (threads size rounds : Nat) : Action (Guarded N S) (List Nat) :=
  raceFrom threads size rounds []

end HeapGuard.Contention
