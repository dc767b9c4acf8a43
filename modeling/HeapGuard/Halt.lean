import HeapGuard.Bytes

/-! # Ends of a run

A run ends early when arithmetic leaves its range, or when a fatal report has been
written.
-/

namespace HeapGuard

inductive Trap where
  | addOverflow
  | subOverflow
  | remainderByZero
  deriving DecidableEq, Repr

def Trap.message : Trap → String
  | .addOverflow => "attempt to add with overflow"
  | .subOverflow => "attempt to subtract with overflow"
  | .remainderByZero => "attempt to calculate the remainder with a divisor of zero"

inductive Halt where
  | abort
  | trap (cause : Trap)
  deriving DecidableEq, Repr

/-- Addition of 64-bit numbers that traps instead of wrapping around. -/
def addChecked (a b : Nat) : Except Trap Nat :=
  if a + b < 0x10000000000000000 then .ok (a + b) else .error .addOverflow

/-- Subtraction that traps below zero. -/
def subChecked (a b : Nat) : Except Trap Nat :=
  if b ≤ a then .ok (a - b) else .error .subOverflow

end HeapGuard
