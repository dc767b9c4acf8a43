import HeapGuard.Numeral.Decimal

/-! # Numbers in fixed fields

A field is a fixed row of cells that is used again and again. Decimal numbers are
written flush right, so the cells in front of a number keep what they held.
-/

namespace HeapGuard.Numeral

abbrev Field (n : Nat) := Vector UInt8 n

/-- A field and the cell at which the text written last starts. -/
structure Written (n : Nat) where
  cells : Field n
  start : Nat

def Written.text {n : Nat} (w : Written n) : Bytes := w.cells.toList.drop w.start

namespace Field

variable {n : Nat}

def blank (n : Nat) : Field n := Vector.replicate n 0

/-- Write the digits of `v` so that the last one stands before cell `i`. -/
def putDigits (f : Field n) : (i v : Nat) → Written n
  | 0, _ => ⟨f, 0⟩
  | i + 1, v =>
    let f := f.setIfInBounds i (digit (v % 10))
    if v / 10 = 0 then ⟨f, i⟩ else putDigits f i (v / 10)

def putDecimal (f : Field n) (v : Nat) : Written n :=
  f.putDigits n v

def putBytes (f : Field n) : (i : Nat) → Bytes → Field n
  | _, [] => f
  | i, b :: bs => putBytes (f.setIfInBounds i b) (i + 1) bs

/-- Decimal digits flush right, a minus sign in front of them for numbers below zero. -/
def putStatus (f : Field n) (s : Int) : Written n :=
  let digits := ((blank 20).putDecimal s.natAbs).text
  let start := n - digits.length
  let f := f.putBytes start digits
  if s < 0 then ⟨f.setIfInBounds (start - 1) 45, start - 1⟩ else ⟨f, start⟩

def hexDigit (d : Nat) : UInt8 := if d < 10 then digit d else (87 + d).toUInt8

def putHexDigits (f : Field n) : (k v : Nat) → Field n
  | 0, _ => f
  | k + 1, v => putHexDigits (f.setIfInBounds (k + 2) (hexDigit (v % 16))) k (v / 16)

/-- The sign `0x` and a digit in each further cell. -/
def putHex (f : Field n) (v : Nat) : Written n :=
  ⟨putHexDigits ((f.setIfInBounds 0 48).setIfInBounds 1 120) (n - 2) v, 0⟩

end Field

def decimalText (v : Nat) : Bytes := ((Field.blank 20).putDecimal v).text

def hexText (v : Nat) : Bytes := ((Field.blank 18).putHex v).text

end HeapGuard.Numeral
