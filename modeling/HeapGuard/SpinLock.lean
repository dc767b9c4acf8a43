/-! # The spin lock

Threads that share a value behind a lock, one atomic step at a time: an exchange of
the flag that may fail without cause, a look at the flag while waiting, the read and
the write of the value by the thread that holds the lock, and the reset of the flag.
A schedule says which thread makes the next step.
-/

namespace HeapGuard.SpinLock

/-- Where a thread stands in a round of lock, read, write, unlock. -/
inductive Phase (α : Type) where
  | outside
  /-- The last exchange failed: look at the flag until it is down. -/
  | waiting
  | locked
  | loaded (v : α)
  | stored

/-- A thread and the updates it still has to make, one in each round. -/
structure Thread (α : Type) where
  updates : List (α → α)
  phase : Phase α

structure State (α : Type) where
  flag : Bool
  value : α
  threads : List (Thread α)

variable {α : Type}

def State.start (value : α) (updates : List (List (α → α))) : State α :=
  ⟨false, value, updates.map fun us => ⟨us, .outside⟩⟩

/-- The step of a thread on flag and value; none if its updates are made. If `spurious`, an
exchange of the flag fails whatever the flag is. -/
def Thread.step (spurious flag : Bool) (value : α) (t : Thread α) : Option (Bool × α × Thread α) :=
  match t.phase, t.updates with
  | .outside, [] => none
  | .outside, _ :: _ =>
    if flag || spurious then some (flag, value, { t with phase := .waiting })
    else some (true, value, { t with phase := .locked })
  | .waiting, _ => some (flag, value, { t with phase := if flag then .waiting else .outside })
  | .locked, _ => some (flag, value, { t with phase := .loaded value })
  | .loaded _, [] => some (flag, value, { t with phase := .stored })
  | .loaded v, f :: fs => some (flag, f v, ⟨fs, .stored⟩)
  | .stored, _ => some (false, value, { t with phase := .outside })

def State.step (s : State α) (i : Nat) (spurious : Bool) : Option (State α) := do
  let t ← s.threads[i]?
  let (flag, value, t) ← t.step spurious s.flag s.value
  return ⟨flag, value, s.threads.set i t⟩

/-- The steps of a schedule in turn; a thread that is done is passed over. -/
def State.run (s : State α) (schedule : List Nat) : State α :=
  schedule.foldl (fun s i => (s.step i false).getD s) s

def State.isDone (s : State α) : Bool := s.threads.all fun t => t.updates.isEmpty

/-- The steps of a round in which the lock is free: exchange, read, write, reset. -/
def roundSteps : Nat := 4

/-- As many steps as a round takes by every thread in turn, up to `k` times. -/
def State.sweep (s : State α) : Nat → State α
  | 0 => s
  | k + 1 =>
    if s.isDone then s
    else (s.run ((List.range s.threads.length).flatMap (List.replicate roundSteps))).sweep k

/-- Make all updates: no two sweeps pass without one. -/
def State.finish (s : State α) : State α :=
  s.sweep (2 * (s.threads.flatMap fun t => t.updates).length + 2)

def count (threads rounds : Nat) : Nat :=
  (State.start 0 (List.replicate threads (List.replicate rounds (· + 1)))).finish.value

/-- Two threads append to a list, the second one waiting while the first holds the lock. -/
def contend (first second : α) : List α :=
  let append (a : α) (l : List α) : List α := l ++ [a]
  ((State.start [] [[append first], [append second]]).run [0, 1, 1, 0, 1, 0, 1, 0]).finish.value

end HeapGuard.SpinLock
