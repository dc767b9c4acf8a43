import HeapGuard.Heap

/-! # Lines

A line is composed in a scratch block and goes to the output stream in one write.
Nothing is kept between lines.
-/

namespace HeapGuard

/-- Store a text and a zero byte at `a`, cut so that both fit into `capacity` bytes. -/
def Memory.storeText (m : Memory) (a capacity : Nat) (text : Bytes) : Memory :=
  if capacity = 0 then m else m.write a (text.take (capacity - 1) ++ [0])

namespace Line

variable {H : Type}

def maxText : Nat := 0x7FFFFFFE

/-- The text and a line break, the text cut to what a scratch block could hold. -/
def compose (text : Bytes) (capacity : Nat) : Bytes :=
  text.take (min capacity maxText) ++ [10]

def maxLength : Nat := 0x7FFFFFFF

/-- Compose the line in a scratch block. The answer is the length of the line, cut or not, or a
negative number if it cannot be told. -/
def format (text : Bytes) (s : Heap.Scratch) : Action H Int := do
  let line := compose text s.capacity
  Action.modifyMemory fun m => m.storeText s.addr s.capacity line
  return if line.length ≤ maxLength then line.length else -1

/-- Write the first bytes of the line to the output stream. A line that cannot be composed is not
written; the answer is the number that tells so. -/
def send (text : Bytes) (fits : Nat) (s : Heap.Scratch) : Action H Int := do
  let composed ← format text s
  if composed < 0 then return composed
  Action.writeOut ((← Action.memory).read s.addr fits)

/-- Print the text before its first NUL as a line. The answer is the status of the write; a line
that did not fit into the scratch block is a failure, but its start has been written. -/
def print [Heap H] (text : Bytes) (scratchSize : Nat) : Action H (Except Failure Nat) := do
  let text := text.untilNul
  let wanted := text.length + 1
  let fits := min wanted (scratchSize - 1)
  match ← Heap.withScratch scratchSize (send text fits) with
  | .error e => return .error e
  | .ok status =>
    if status < 0 then return .error (.write status)
    else if fits < wanted then return .error (.truncated status.toNat wanted)
    else return .ok status.toNat

end Line

end HeapGuard
