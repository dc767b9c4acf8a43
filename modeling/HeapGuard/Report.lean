import HeapGuard.Failure
import HeapGuard.Ledger
import HeapGuard.Machine
import HeapGuard.RedZone

/-! # Reports on the error stream

Warnings let the run go on, fatal reports end it. The leak report lists every block
that was handed out and not given back.
-/

namespace HeapGuard

open Numeral

/-- Why a block is not taken back. -/
inductive Fault where
  /-- No live block starts at the address. -/
  | unknown (addr : Nat)
  /-- The zones around the block are damaged. -/
  | damaged (addr size : Nat) (damage : RedZone.Damage)
  deriving DecidableEq, Repr, Hashable

namespace Report

def warningHeader : Bytes := .ofText "\x1b[1;33maki-rt warning:\x1b[0m "

def fatalHeader : Bytes := .ofText "\n\x1b[1;31m=== aki-rt fatal ===\x1b[0m\n"

def fatalFooter : Bytes := .ofText "aborting.\n\n"

def leakHeader : Bytes := .ofText "\n\x1b[1;33m=== aki-rt sanitizer: leak report ===\x1b[0m\n"

def leakLine (e : Entry) : List Bytes :=
  [.ofText "  LEAK: ", hexText e.addr, .ofText "  size=", decimalText e.size, .ofText "  via=",
    e.kind.label, .ofText "\n"]

def leakFooter (count : Nat) : List Bytes :=
  [.ofText "  total leaks: ", decimalText count, .ofText "\n\n"]

def leaks (entries : List Entry) (count : Nat) : List Bytes :=
  leakHeader :: entries.flatMap leakLine ++ leakFooter count

def warning (f : Failure) : List Bytes := warningHeader :: f.pieces

end Report

inductive Fatal where
  | failure (f : Failure)
  | outOfMemory (bytes : Nat)
  | internal
  | fault (f : Fault)
  deriving DecidableEq, Repr, Hashable

namespace Fatal

def body : Fatal → List Bytes
  | failure f => .ofText "ERROR: " :: f.pieces
  | outOfMemory bytes =>
    [.ofText "ERROR: out of memory\n  requested: ", decimalText bytes, .ofText " bytes\n"]
  | internal => [.ofText "ERROR: runtime panic\n"]
  | fault (.unknown addr) =>
    [.ofText "ERROR: invalid free\n  address: ", hexText addr,
      .ofText "\n  Not a live allocation: double free or foreign pointer.\n"]
  | fault (.damaged addr size damage) =>
    [.ofText "ERROR: buffer overflow detected (red zone corruption)\n  address: ", hexText addr,
      .ofText "\n  size:    ", decimalText size, .ofText " bytes\n"] ++
      (if damage.before then [.ofText "  -> underflow: prefix red zone corrupted\n"] else []) ++
      (if damage.after then [.ofText "  -> overflow: suffix red zone corrupted\n"] else [])

def report (f : Fatal) : List Bytes := Report.fatalHeader :: f.body ++ [Report.fatalFooter]

end Fatal

namespace Action

variable {H α : Type}

def die (f : Fatal) : Action H α := do
  tell f.report
  abort

def warn (f : Failure) : Action H Unit := do
  if (← get).settings.diagnostics then tell (Report.warning f)

end Action

end HeapGuard
