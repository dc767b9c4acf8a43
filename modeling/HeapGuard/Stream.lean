import HeapGuard.Bytes

/-! # Streams

A stream answers each write with a status: how many bytes it took, or a negative
number if the write failed. What it answers may depend on all earlier writes.
-/

namespace HeapGuard

structure Write where
  bytes : Bytes
  status : Int

/-- The writes are kept in a list, the last one first. -/
structure Stream where
  reply : List Write → Bytes → Int
  writes : List Write

namespace Stream

def accepting : Stream := ⟨fun _ b => b.length, []⟩

/-- Takes at most `k` bytes of each write. -/
def limited (k : Nat) : Stream := ⟨fun _ b => min b.length k, []⟩

/-- Answers every write with the same status. -/
def fixed (status : Int) : Stream := ⟨fun _ _ => status, []⟩

def write (s : Stream) (b : Bytes) : Int × Stream :=
  let status := s.reply s.writes b
  (status, { s with writes := ⟨b, status⟩ :: s.writes })

def writeAll (s : Stream) (pieces : List Bytes) : Stream :=
  pieces.foldl (fun s b => (s.write b).2) s

/-- The bytes that arrived. -/
def received (s : Stream) : Bytes :=
  s.writes.reverse.flatMap fun w => w.bytes.take w.status.toNat

def forget (s : Stream) : Stream := { s with writes := [] }

end Stream

end HeapGuard
