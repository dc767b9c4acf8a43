import HeapGuard.Proofs.Numeral.Field

/-! # Hexadecimal numerals

An address is written in a fixed number of lower-case digits, leading zeros included, behind
`0x`. The text takes up its whole field.
-/

namespace HeapGuard.Numeral

def isHexDigit (b : UInt8) : Bool := isDigit b || 97 ≤ b && b ≤ 102

def hexDigitValue (b : UInt8) : Nat := if isDigit b then b.toNat - 48 else b.toNat - 87

def hexPlaces (ds : Bytes) : List Nat := ds.reverse.map hexDigitValue

/-- The text holds `k` digits, which stand for the number. -/
structure IsHex (k v : Nat) (ds : Bytes) : Prop where
  length_eq : ds.length = k
  digits : ∀ b ∈ ds, isHexDigit b
  ofDigits_eq : Nat.ofDigits 16 (hexPlaces ds) = v

/-- The last `k` digits of a number, the most significant first. -/
def hexDigits : (k v : Nat) → Bytes
  | 0, _ => []
  | k + 1, v => hexDigits k (v / 16) ++ [Field.hexDigit (v % 16)]

theorem isHexDigit_hexDigit : ∀ d < 16, isHexDigit (Field.hexDigit d) := by decide

theorem hexDigitValue_hexDigit : ∀ d < 16, hexDigitValue (Field.hexDigit d) = d := by decide

theorem length_hexDigits (k v : Nat) : (hexDigits k v).length = k := by
  induction k generalizing v with
  | zero => rfl
  | succ k ih => rw [hexDigits, List.length_append, ih, List.length_singleton]

theorem isHexDigit_of_mem_hexDigits {k v : Nat} {b : UInt8} (hb : b ∈ hexDigits k v) :
    isHexDigit b := by
  induction k generalizing v with
  | zero => cases hb
  | succ k ih =>
    rw [hexDigits, List.mem_append, List.mem_singleton] at hb
    rcases hb with hb | rfl
    · exact ih hb
    · exact isHexDigit_hexDigit _ (Nat.mod_lt v (by decide))

theorem ofDigits_hexPlaces {k v : Nat} (hv : v < 16 ^ k) :
    Nat.ofDigits 16 (hexPlaces (hexDigits k v)) = v := by
  induction k generalizing v with
  | zero =>
    rw [Nat.pow_zero, Nat.lt_one_iff] at hv
    rw [hv]
    rfl
  | succ k ih =>
    have hdiv : v / 16 < 16 ^ k := Nat.div_lt_of_lt_mul (by rwa [Nat.mul_comm, ← Nat.pow_succ])
    have htail := ih hdiv
    rw [hexPlaces] at htail
    rw [hexDigits, hexPlaces, List.reverse_concat, List.map_cons, Nat.ofDigits_cons, htail,
      hexDigitValue_hexDigit _ (Nat.mod_lt v (by decide))]
    exact Nat.mod_add_div v 16

theorem isHex_hexDigits {k v : Nat} (hv : v < 16 ^ k) : IsHex k v (hexDigits k v) where
  length_eq := length_hexDigits k v
  digits _ := isHexDigit_of_mem_hexDigits
  ofDigits_eq := ofDigits_hexPlaces hv

namespace Field

variable {n k : Nat}

theorem toList_putHexDigits (f : Field n) {v : Nat} (h : k + 2 ≤ n) :
    (f.putHexDigits k v).toList =
      f.toList.take 2 ++ (hexDigits k v ++ f.toList.drop (k + 2)) := by
  induction k generalizing f v with
  | zero => exact (List.take_append_drop 2 f.toList).symm
  | succ k ih =>
    have hlen : (f.toList.take (k + 2)).length = k + 2 := by
      rw [List.length_take, Vector.length_toList]
      omega
    rw [putHexDigits, ih _ (by omega), f.toList_setIfInBounds_of_lt (by omega),
      List.take_append_of_le_length (by omega), List.take_take, Nat.min_eq_left (by omega),
      List.drop_left' hlen, hexDigits, List.append_assoc, List.singleton_append]

/-- Nothing is left of what the field held. -/
theorem flush_putHex (f : Field (k + 2)) (v : Nat) :
    (f.putHex v).Flush f (48 :: 120 :: hexDigits k v) := by
  constructor
  · change 0 + _ = _
    rw [List.length_cons, List.length_cons, length_hexDigits]
    omega
  · have hsign : ((f.setIfInBounds 0 48).setIfInBounds 1 120).toList.take 2 = [48, 120] := by
      rw [toList_setIfInBounds_of_lt _ (by omega), toList_setIfInBounds_of_lt _ (by omega)]
      rfl
    change (putHexDigits _ (k + 2 - 2) v).toList = _
    rw [Nat.add_sub_cancel, toList_putHexDigits _ (Nat.le_refl _), hsign,
      List.drop_eq_nil_of_le (by rw [Vector.length_toList]), List.append_nil]
    rfl

end Field

theorem hexText_eq (v : Nat) : hexText v = .ofText "0x" ++ hexDigits 16 v := by
  have hsign : Bytes.ofText "0x" = [48, 120] := rfl
  rw [hexText, ((Field.blank 18).flush_putHex v).text_eq, hsign, List.cons_append,
    List.cons_append, List.nil_append]

end HeapGuard.Numeral
