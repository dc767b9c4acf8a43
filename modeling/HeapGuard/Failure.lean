import HeapGuard.Numeral.Field

/-! # Failures

The ways in which a request can fail and the caller can go on, and the two texts
for each: a message, and a line for the error stream.
-/

namespace HeapGuard

open Numeral

inductive Failure where
  /-- No block of so many bytes could be had. -/
  | allocation (bytes : Nat)
  /-- The stream answered a write with a negative status. -/
  | write (status : Int)
  /-- The line did not fit into the scratch block. -/
  | truncated (written wanted : Nat)
  deriving DecidableEq, Repr, Hashable

namespace Failure

/-- How much was written all the same. -/
def written : Failure → Nat
  | truncated w _ => w
  | _ => 0

def message : Failure → Bytes
  | allocation n => .ofText "allocation of " ++ decimal n ++ .ofText " bytes failed"
  | write s => .ofText "write failed with status " ++ signed s
  | truncated w n =>
    .ofText "output truncated: wrote " ++ decimal w ++ .ofText " of " ++ decimal n ++
      .ofText " bytes"

def inspect : Failure → Bytes
  | allocation n => .ofText "AllocFailed \x7b bytes: " ++ decimal n ++ .ofText " \x7d"
  | write s => .ofText "WriteFailed \x7b status: " ++ signed s ++ .ofText " \x7d"
  | truncated w n =>
    .ofText "Truncated \x7b written: " ++ decimal w ++ .ofText ", wanted: " ++ decimal n ++
      .ofText " \x7d"

/-- The pieces of a line for the error stream. Both numbers of a truncation go through the same
field. -/
def pieces : Failure → List Bytes
  | allocation n =>
    [.ofText "allocation failed, requested ", ((Field.blank 20).putDecimal n).text,
      .ofText " bytes\n"]
  | write s =>
    [.ofText "console write failed, status ", ((Field.blank 21).putStatus s).text, .ofText "\n"]
  | truncated w n =>
    let first := (Field.blank 20).putDecimal w
    let second := first.cells.putDecimal n
    [.ofText "print output truncated, wrote ", first.text, .ofText " of ", second.text,
      .ofText " bytes\n"]

def describe (f : Failure) : Bytes := f.pieces.flatten

end Failure

end HeapGuard
