import HeapGuard.Bytes

/-! # Decimal numerals

The canonical decimal form of a number, and the number that a text starts with.
-/

namespace HeapGuard.Numeral

def digit (n : Nat) : UInt8 := (48 + n).toUInt8

def isDigit (b : UInt8) : Bool := 48 ≤ b && b ≤ 57

/-- Most significant digit first, no leading zero except for zero itself. -/
def decimal (n : Nat) : Bytes :=
  if n < 10 then [digit n] else decimal (n / 10) ++ [digit (n % 10)]
termination_by n

def signed (i : Int) : Bytes :=
  if i < 0 then 45 :: decimal i.natAbs else decimal i.natAbs

def value (ds : Bytes) : Nat :=
  ds.foldl (fun n b => 10 * n + (b.toNat - 48)) 0

/-- Space, or one of the five controls from tab to carriage return. -/
def isBlank (b : UInt8) : Bool := b == 32 || 9 ≤ b && b ≤ 13

/-- The integer a text starts with: blanks, at most one sign, digits, of which `eval` gives the
value. -/
def leadingBy (eval : Bytes → Nat) (text : Bytes) : Int :=
  match text.dropWhile isBlank with
  | 45 :: rest => -(eval (rest.takeWhile isDigit) : Int)
  | 43 :: rest => eval (rest.takeWhile isDigit)
  | rest => eval (rest.takeWhile isDigit)

/-- The integer a text starts with. Zero if there are no digits. -/
def leading (text : Bytes) : Int := leadingBy value text

def clamp64 (i : Int) : Int := max (-0x8000000000000000) (min i 0x7FFFFFFFFFFFFFFF)

/-- The value of a run of digits, or `cap` if it is larger. Numbers stay small however long the
run is. -/
def cappedValue (cap : Nat) (ds : Bytes) : Nat :=
  ds.foldl (fun n b => min cap (10 * n + (b.toNat - 48))) 0

/-- The low 32 bits of the clamped integer that a text starts with. -/
def toInt32 (text : Bytes) : Int32 :=
  Int32.ofInt (clamp64 (leadingBy (cappedValue 0x8000000000000000) text))

theorem foldl_min_eq (cap : Nat) (ds : Bytes) (n : Nat) :
    ds.foldl (fun n b => min cap (10 * n + (b.toNat - 48))) (min cap n) =
      min cap (ds.foldl (fun n b => 10 * n + (b.toNat - 48)) n) := by
  induction ds generalizing n with
  | nil => rfl
  | cons b ds ih =>
    have capped : min cap (10 * min cap n + (b.toNat - 48)) =
        min cap (10 * n + (b.toNat - 48)) := by omega
    rw [List.foldl_cons, capped, ih, List.foldl_cons]

theorem cappedValue_eq_min (cap : Nat) (ds : Bytes) : cappedValue cap ds = min cap (value ds) := by
  simpa [cappedValue, value] using foldl_min_eq cap ds 0

theorem toInt32_eq (text : Bytes) : toInt32 text = Int32.ofInt (clamp64 (leading text)) := by
  have bounds (n : Nat) : clamp64 (min 0x8000000000000000 n : Nat) = clamp64 n ∧
      clamp64 (-(min 0x8000000000000000 n : Nat)) = clamp64 (-n) := by
    unfold clamp64
    omega
  unfold toInt32 leading leadingBy
  split <;> simp only [cappedValue_eq_min, bounds]

end HeapGuard.Numeral
