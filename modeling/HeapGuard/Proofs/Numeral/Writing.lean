import HeapGuard.Proofs.Checked
import HeapGuard.Proofs.Numeral.Hexadecimal

/-! # Writing numbers into used fields

Fields are exactly as wide as the longest number that goes into them. So a number of 64 bits
is always written in full, no cell outside of its field is ever touched on the way, and the
text does not depend on what the field held before.
-/

namespace HeapGuard.Numeral

variable {n : Nat}

namespace Field

/-! ## Writers made of checked steps -/

/-- The place of a digit is counted down before the digit is written, until no digits are left. -/
def putDigitsChecked (f : Field n) (i v : Nat) : Except Mishap (Written n) := do
  let i ← Checked.sub i 1
  let f ← Checked.set f i (digit (v % 10))
  if _h : v / 10 = 0 then return ⟨f, i⟩ else putDigitsChecked f i (v / 10)
termination_by v

def putDecimalChecked (f : Field n) (v : Nat) : Except Mishap (Written n) :=
  f.putDigitsChecked n v

def putBytesChecked (f : Field n) : (i : Nat) → Bytes → Except Mishap (Field n)
  | _, [] => .ok f
  | i, b :: bs => do
    let f ← Checked.set f i b
    putBytesChecked f (i + 1) bs

def putStatusChecked (f : Field n) (s : Int) : Except Mishap (Written n) := do
  let digits := (← (blank 20).putDecimalChecked s.natAbs).text
  let start ← Checked.sub n digits.length
  let f ← f.putBytesChecked start digits
  if s < 0 then
    let sign ← Checked.sub start 1
    let f ← Checked.set f sign 45
    return ⟨f, sign⟩
  else return ⟨f, start⟩

def hexTable : Vector UInt8 16 :=
  #v[48, 49, 50, 51, 52, 53, 54, 55, 56, 57, 97, 98, 99, 100, 101, 102]

def putHexDigitsChecked (f : Field n) : (k v : Nat) → Except Mishap (Field n)
  | 0, _ => .ok f
  | k + 1, v => do
    let d ← Checked.get hexTable (v % 16)
    let f ← Checked.set f (k + 2) d
    putHexDigitsChecked f k (v / 16)

def putHexChecked (f : Field n) (v : Nat) : Except Mishap (Written n) := do
  let f ← Checked.set f 0 48
  let f ← Checked.set f 1 120
  let digits ← Checked.sub n 2
  return ⟨← putHexDigitsChecked f digits v, 0⟩

theorem set_of_lt {f : Field n} {i : Nat} {b : UInt8} (h : i < n) :
    Checked.set f i b = .ok (f.setIfInBounds i b) := by
  rw [Checked.set_of_lt h]
  congr 1
  ext j hj
  rw [Vector.getElem_set, Vector.getElem_setIfInBounds]

theorem putDigitsChecked_eq (f : Field n) {i v : Nat} (hi : i ≤ n) (hpos : 0 < i)
    (hv : v < 10 ^ i) : f.putDigitsChecked i v = .ok (f.putDigits i v) := by
  induction i generalizing f v with
  | zero => cases hpos
  | succ i ih =>
    rw [putDigitsChecked, putDigits, Checked.sub_of_le hpos, Checked.ok_bind, Nat.add_sub_cancel,
      set_of_lt hi, Checked.ok_bind]
    by_cases hd : v / 10 = 0
    · rw [dif_pos hd, if_pos hd]
      rfl
    · have hdiv : v / 10 < 10 ^ i := Nat.div_lt_of_lt_mul (by rwa [Nat.mul_comm, ← Nat.pow_succ])
      have hpos' : 0 < i := by
        rcases Nat.eq_zero_or_pos i with rfl | h
        · omega
        · exact h
      rw [dif_neg hd, if_neg hd, ih _ (Nat.le_of_succ_le hi) hpos' hdiv]

theorem putDecimalChecked_eq (f : Field n) {v : Nat} (hn : 0 < n) (hv : v < 10 ^ n) :
    f.putDecimalChecked v = .ok (f.putDecimal v) :=
  f.putDigitsChecked_eq (Nat.le_refl n) hn hv

theorem putBytesChecked_eq (f : Field n) {i : Nat} {bs : Bytes} (h : i + bs.length ≤ n) :
    f.putBytesChecked i bs = .ok (f.putBytes i bs) := by
  induction bs generalizing f i with
  | nil => rfl
  | cons b bs ih =>
    rw [List.length_cons] at h
    rw [putBytesChecked, set_of_lt (by omega), Checked.ok_bind, ih _ (by omega), putBytes]

theorem putStatusChecked_eq (f : Field n) {s : Int} (hs : s.natAbs < 10 ^ 20) (hn : 20 < n) :
    f.putStatusChecked s = .ok (f.putStatus s) := by
  have hlen : ((blank 20).putDecimal s.natAbs).text.length ≤ 20 := by
    rw [((blank 20).flush_putDecimal (by decide) hs).text_eq]
    exact length_decimal_le (by decide) hs
  unfold putStatusChecked putStatus
  rw [(blank 20).putDecimalChecked_eq (by decide) hs, Checked.ok_bind]
  dsimp only
  rw [Checked.sub_of_le (by omega), Checked.ok_bind, putBytesChecked_eq _ (by omega),
    Checked.ok_bind]
  by_cases hneg : s < 0
  · rw [if_pos hneg, if_pos hneg, Checked.sub_of_le (by omega), Checked.ok_bind,
      set_of_lt (by omega)]
    rfl
  · rw [if_neg hneg, if_neg hneg]
    rfl

theorem get_hexTable {d : Nat} (h : d < 16) : Checked.get hexTable d = .ok (hexDigit d) := by
  have hall : ∀ d : Fin 16, hexTable.get d = hexDigit d := by decide
  rw [Checked.get_of_lt h, hall]

theorem putHexDigitsChecked_eq (f : Field n) {k v : Nat} (h : k + 2 ≤ n) :
    f.putHexDigitsChecked k v = .ok (f.putHexDigits k v) := by
  induction k generalizing f v with
  | zero => rfl
  | succ k ih =>
    rw [putHexDigitsChecked, get_hexTable (Nat.mod_lt v (by decide)), Checked.ok_bind,
      set_of_lt (by omega), Checked.ok_bind, ih _ (by omega), putHexDigits]

theorem putHexChecked_eq (f : Field n) {v : Nat} (hn : 2 ≤ n) :
    f.putHexChecked v = .ok (f.putHex v) := by
  rw [putHexChecked, set_of_lt (by omega), Checked.ok_bind, set_of_lt (by omega), Checked.ok_bind,
    Checked.sub_of_le hn, Checked.ok_bind, putHexDigitsChecked_eq _ (by omega)]
  rfl

end Field

/-- Whatever a field holds, the text is written at its end and nothing goes wrong on the way. The
cells in front of the text are left alone. -/
structure Fills (n : Nat) (put : Field n → Written n) (checked : Field n → Except Mishap (Written n))
    (text : Bytes) : Prop where
  text_eq : ∀ f, (put f).text = text
  flush : ∀ f, (put f).Flush f text
  checked_eq : ∀ f, checked f = .ok (put f)

theorem fills_decimal {v : Nat} (hv : v < 2 ^ 64) :
    Fills 20 (·.putDecimal v) (·.putDecimalChecked v) (decimal v) := by
  have hfits : v < 10 ^ 20 := by omega
  constructor
  · intro f
    exact (f.flush_putDecimal (by decide) hfits).text_eq
  · intro f
    exact f.flush_putDecimal (by decide) hfits
  · intro f
    exact f.putDecimalChecked_eq (by decide) hfits

theorem fills_hex (v : Nat) :
    Fills 18 (·.putHex v) (·.putHexChecked v) (48 :: 120 :: hexDigits 16 v) := by
  constructor
  · intro f
    exact (f.flush_putHex v).text_eq
  · intro f
    exact f.flush_putHex v
  · intro f
    exact f.putHexChecked_eq (by decide)

theorem fills_status {s : Int} (hs : s.natAbs ≤ 2 ^ 63) :
    Fills 21 (·.putStatus s) (·.putStatusChecked s) (signed s) := by
  have hfits : s.natAbs < 10 ^ 20 := by omega
  constructor
  · intro f
    exact (f.flush_putStatus hfits (by decide)).text_eq
  · intro f
    exact f.flush_putStatus hfits (by decide)
  · intro f
    exact f.putStatusChecked_eq hfits (by decide)

/-- Every number of 64 bits fits into its field, whatever stood there before: an unsigned one in
decimal digits and in hexadecimal ones, and a signed one with its sign. -/
theorem words_fill_fields (v : UInt64) (s : Int64) :
    (∃ text, IsDecimal v.toNat text ∧ 1 ≤ text.length ∧ text.length ≤ 20 ∧ value text = v.toNat ∧
      Fills 20 (·.putDecimal v.toNat) (·.putDecimalChecked v.toNat) text) ∧
    (∃ ds, IsHex 16 v.toNat ds ∧
      Fills 18 (·.putHex v.toNat) (·.putHexChecked v.toNat) (48 :: 120 :: ds)) ∧
    ∃ text, IsSigned s.toInt text ∧ leading text = s.toInt ∧
      Fills 21 (·.putStatus s.toInt) (·.putStatusChecked s.toInt) text := by
  have hv := v.toNat_lt
  have hl := s.le_toInt
  have hu := s.toInt_lt
  refine ⟨?_, ?_, ?_⟩
  · exact ⟨decimal v.toNat, isDecimal_decimal _, List.length_pos_of_ne_nil (decimal_ne_nil _),
      length_decimal_le (by decide) (by omega), value_decimal _, fills_decimal hv⟩
  · exact ⟨hexDigits 16 v.toNat, isHex_hexDigits (by omega), fills_hex _⟩
  · exact ⟨signed s.toInt, isSigned_signed _, (isSigned_signed _).leading_eq,
      fills_status (by omega)⟩

/-- The longest negative number, behind what an even longer text has left. -/
example : (Field.putStatus (Vector.replicate 21 57) (-0x8000000000000000)).text =
    .ofText "-9223372036854775808" := by decide

end HeapGuard.Numeral
