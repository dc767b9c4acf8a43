import HeapGuard.Numeral.Decimal
import Mathlib.Data.List.Basic
import Mathlib.Data.List.Induction
import Mathlib.Data.List.TakeWhile
import Mathlib.Data.Nat.Digits.Defs

/-! # Decimal numerals, written and read

The text of a number is its only text without leading zeros. What is read from a text
is told by the parts the text falls into: blanks, at most one sign, digits, and a rest.
Each part but the last is as long as it can be, and the rest has no say. An integer of
32 bits is read back from its text.
-/

namespace HeapGuard.Numeral

/-! ## Digits -/

def places (ds : Bytes) : List Nat := ds.reverse.map fun b => b.toNat - 48

theorem toNat_digit {n : Nat} (h : n < 10) : (digit n).toNat = 48 + n := by
  unfold digit
  rw [Nat.toUInt8_eq, UInt8.toNat_ofNat']
  omega

theorem isDigit_digit {n : Nat} (h : n < 10) : isDigit (digit n) := by
  have hd := toNat_digit h
  simp only [isDigit, Bool.and_eq_true, decide_eq_true_eq, UInt8.le_iff_toNat_le, hd]
  exact ⟨Nat.le_add_right 48 n, Nat.add_le_add_left (Nat.le_of_lt_succ h) 48⟩

theorem bounds_of_isDigit {b : UInt8} (h : isDigit b) :
    ¬ isBlank b ∧ b ≠ 43 ∧ b ≠ 45 ∧ b ≠ 0 := by
  simp only [isDigit, isBlank, Bool.and_eq_true, Bool.or_eq_true, decide_eq_true_eq, beq_iff_eq,
    UInt8.le_iff_toNat_le, ← UInt8.toNat_inj, UInt8.reduceToNat, ne_eq] at h ⊢
  omega

theorem value_append_singleton (ds : Bytes) (b : UInt8) :
    value (ds ++ [b]) = 10 * value ds + (b.toNat - 48) := by
  simp [value]

theorem value_eq_ofDigits (ds : Bytes) : value ds = Nat.ofDigits 10 (places ds) := by
  induction ds using List.reverseRecOn with
  | nil => rfl
  | append_singleton ds b ih =>
    rw [value_append_singleton, ih, places, places, List.reverse_concat, List.map_cons,
      Nat.ofDigits_cons]
    exact Nat.add_comm _ _

theorem value_decimal (n : Nat) : value (decimal n) = n := by
  induction n using decimal.induct with
  | case1 n h =>
    rw [decimal, if_pos h, ← List.nil_append [digit n], value_append_singleton, toNat_digit h]
    simp [value]
  | case2 n h ih =>
    rw [decimal, if_neg h, value_append_singleton, ih, toNat_digit (Nat.mod_lt n (by decide))]
    omega

theorem decimal_ne_nil (n : Nat) : decimal n ≠ [] := by
  rw [decimal]
  split <;> simp

theorem length_decimal_le {n k : Nat} (hk : 0 < k) (h : n < 10 ^ k) : (decimal n).length ≤ k := by
  induction k generalizing n with
  | zero => cases hk
  | succ k ih =>
    rw [decimal]
    split
    · exact hk
    · next hn =>
      have hdiv : n / 10 < 10 ^ k := Nat.div_lt_of_lt_mul (by rwa [Nat.mul_comm, ← Nat.pow_succ])
      have hpos : 0 < k := by
        rcases Nat.eq_zero_or_pos k with rfl | hpos
        · omega
        · exact hpos
      rw [List.length_append, List.length_singleton]
      exact Nat.succ_le_succ (ih hpos hdiv)

/-- The text holds the digits of the number and no leading zero, except for zero itself. -/
structure IsDecimal (n : Nat) (ds : Bytes) : Prop where
  digits : ∀ b ∈ ds, isDigit b
  ne_nil : ds ≠ []
  no_leading_zero : ds.head? = some 48 → ds = [48]
  ofDigits_eq : Nat.ofDigits 10 (places ds) = n

theorem isDigit_of_mem_decimal {n : Nat} {b : UInt8} (hb : b ∈ decimal n) : isDigit b := by
  induction n using decimal.induct with
  | case1 n h =>
    rw [decimal, if_pos h, List.mem_singleton] at hb
    exact hb ▸ isDigit_digit h
  | case2 n h ih =>
    rw [decimal, if_neg h, List.mem_append, List.mem_singleton] at hb
    rcases hb with hb | rfl
    · exact ih hb
    · exact isDigit_digit (Nat.mod_lt n (by decide))

theorem eq_zero_of_head?_decimal {n : Nat} (h : (decimal n).head? = some 48) : n = 0 := by
  induction n using decimal.induct with
  | case1 n hn =>
    rw [decimal, if_pos hn, List.head?_singleton, Option.some_inj] at h
    have hd := toNat_digit hn
    rw [h] at hd
    exact (Nat.add_left_cancel (hd : 48 + 0 = 48 + n)).symm
  | case2 n hn ih =>
    rw [decimal, if_neg hn, List.head?_append_of_ne_nil _ (decimal_ne_nil _)] at h
    have := ih h
    omega

theorem isDecimal_decimal (n : Nat) : IsDecimal n (decimal n) where
  digits _ := isDigit_of_mem_decimal
  ne_nil := decimal_ne_nil n
  no_leading_zero h := by
    rw [eq_zero_of_head?_decimal h, decimal]
    rfl
  ofDigits_eq := by rw [← value_eq_ofDigits, value_decimal]

/-- A minus sign for numbers below zero and no other sign, then the digits. -/
def IsSigned (i : Int) (text : Bytes) : Prop :=
  ∃ ds, IsDecimal i.natAbs ds ∧ text = if i < 0 then 45 :: ds else ds

theorem isSigned_signed (i : Int) : IsSigned i (signed i) :=
  ⟨decimal i.natAbs, isDecimal_decimal _, rfl⟩

theorem zero_notMem_signed (i : Int) : 0 ∉ signed i := by
  have hd : 0 ∉ decimal i.natAbs := fun h =>
    (bounds_of_isDigit (isDigit_of_mem_decimal h)).2.2.2 rfl
  unfold signed
  split
  · simp [hd]
  · exact hd

theorem length_signed_pos (i : Int) : 0 < (signed i).length := by
  have := List.length_pos_of_ne_nil (decimal_ne_nil i.natAbs)
  unfold signed
  split
  · exact Nat.succ_pos _
  · exact this

theorem length_signed_le {i : Int} {k : Nat} (hk : 0 < k) (h : i.natAbs < 10 ^ k) :
    (signed i).length ≤ k + 1 := by
  have := length_decimal_le hk h
  unfold signed
  split
  · exact Nat.succ_le_succ this
  · exact Nat.le_succ_of_le this

/-! ## Reading -/

/-- The parts of a text from which an integer is read. -/
structure Opening (text : Bytes) where
  blanks : Bytes
  sign : Bytes
  digits : Bytes
  rest : Bytes
  text_eq : text = blanks ++ (sign ++ (digits ++ rest))
  blank : ∀ b ∈ blanks, isBlank b
  no_blank : ∀ b ∈ (sign ++ (digits ++ rest)).head?, ¬ isBlank b
  sign_mem : sign ∈ [[], [43], [45]]
  no_sign : sign = [] → ∀ b ∈ (digits ++ rest).head?, b ≠ 43 ∧ b ≠ 45
  digit : ∀ b ∈ digits, isDigit b
  no_digit : ∀ b ∈ rest.head?, ¬ isDigit b

namespace Opening

variable {text : Bytes}

def amount (o : Opening text) : Int :=
  (if o.sign = [45] then -1 else 1) * (Nat.ofDigits 10 (places o.digits) : Nat)

theorem dropWhile_isBlank (o : Opening text) :
    text.dropWhile isBlank = o.sign ++ (o.digits ++ o.rest) := by
  conv_lhs => rw [o.text_eq, List.dropWhile_append_of_pos o.blank]
  cases h : o.sign ++ (o.digits ++ o.rest) with
  | nil => rfl
  | cons b l => rw [List.dropWhile_cons_of_neg (o.no_blank b (by rw [h]; rfl))]

theorem takeWhile_isDigit (o : Opening text) :
    (o.digits ++ o.rest).takeWhile isDigit = o.digits := by
  rw [List.takeWhile_append_of_pos o.digit]
  cases h : o.rest with
  | nil => exact List.append_nil _
  | cons b l =>
    rw [List.takeWhile_cons_of_neg (o.no_digit b (by rw [h]; rfl)), List.append_nil]

/-- However a text is taken apart, it is read as the integer of its parts. -/
theorem leading_eq (o : Opening text) : leading text = o.amount := by
  unfold leading leadingBy amount
  rw [o.dropWhile_isBlank, ← value_eq_ofDigits]
  have hd := o.takeWhile_isDigit
  have hs := o.sign_mem
  simp only [List.mem_cons, List.not_mem_nil, or_false] at hs
  rcases hs with hs | hs | hs
  · have hn := o.no_sign hs
    rw [hs, List.nil_append]
    -- without a sign the first byte is neither of the two
    split
    · next h => exact absurd rfl (hn 45 (by rw [h]; rfl)).2
    · next h => exact absurd rfl (hn 43 (by rw [h]; rfl)).1
    · rw [hd]
      simp
  · rw [hs]
    simp [hd]
  · rw [hs]
    simp [hd]

def behindBlanks (sign tail : Bytes) (h : text.dropWhile isBlank = sign ++ tail)
    (hs : sign ∈ [[], [43], [45]]) (hn : sign = [] → ∀ b ∈ tail.head?, b ≠ 43 ∧ b ≠ 45) :
    Opening text where
  blanks := text.takeWhile isBlank
  sign := sign
  digits := tail.takeWhile isDigit
  rest := tail.dropWhile isDigit
  text_eq := by rw [List.takeWhile_append_dropWhile, ← h, List.takeWhile_append_dropWhile]
  blank _ := List.mem_takeWhile_imp
  no_blank b hb := by
    rw [List.takeWhile_append_dropWhile, ← h] at hb
    have hd := List.head?_dropWhile_not isBlank text
    rw [Option.mem_def.mp hb] at hd
    simp [hd]
  sign_mem := hs
  no_sign := by rwa [List.takeWhile_append_dropWhile]
  digit _ := List.mem_takeWhile_imp
  no_digit b hb := by
    have hd := List.head?_dropWhile_not isDigit tail
    rw [Option.mem_def.mp hb] at hd
    simp [hd]

theorem nonempty (text : Bytes) : Nonempty (Opening text) := by
  rcases h : text.dropWhile isBlank with _ | ⟨b, tail⟩
  · exact ⟨behindBlanks [] [] h (by simp) (by simp)⟩
  · by_cases hm : b = 45
    · exact ⟨behindBlanks [45] tail (hm ▸ h) (by simp) (by simp)⟩
    · by_cases hp : b = 43
      · exact ⟨behindBlanks [43] tail (hp ▸ h) (by simp) (by simp)⟩
      · exact ⟨behindBlanks [] (b :: tail) h (by simp) (by simp [hm, hp])⟩

def ofDecimal {i : Int} {ds : Bytes} (h : IsDecimal i.natAbs ds) :
    Opening (if i < 0 then 45 :: ds else ds) where
  blanks := []
  sign := if i < 0 then [45] else []
  digits := ds
  rest := []
  text_eq := by split <;> simp
  blank := by simp
  no_blank b hb := by
    rw [List.append_nil] at hb
    split at hb
    · rw [List.cons_append, List.head?_cons, Option.mem_some] at hb
      exact hb ▸ by decide
    · exact (bounds_of_isDigit (h.digits b (List.mem_of_mem_head? hb))).1
  sign_mem := by split <;> simp
  no_sign _ b hb := by
    rw [List.append_nil] at hb
    obtain ⟨-, hp, hm, -⟩ := bounds_of_isDigit (h.digits b (List.mem_of_mem_head? hb))
    exact ⟨hp, hm⟩
  digit := h.digits
  no_digit := by simp

theorem amount_ofDecimal {i : Int} {ds : Bytes} (h : IsDecimal i.natAbs ds) :
    (ofDecimal h).amount = i := by
  have hsign : (ofDecimal h).sign = if i < 0 then [45] else [] := rfl
  have hdigits : (ofDecimal h).digits = ds := rfl
  rw [amount, hsign, hdigits, h.ofDigits_eq]
  by_cases hi : i < 0
  · rw [if_pos hi, if_pos rfl]
    omega
  · rw [if_neg hi, if_neg (by simp)]
    omega

end Opening

/-- An integer is read back from its text. -/
theorem IsSigned.leading_eq {i : Int} {text : Bytes} (h : IsSigned i text) : leading text = i := by
  obtain ⟨ds, hds, rfl⟩ := h
  rw [(Opening.ofDecimal hds).leading_eq, Opening.amount_ofDecimal]

/-- The integer at the start of the text is kept within 64 bits, and the value is its low half. -/
structure ReadsAs (text : Bytes) (v : Int32) : Prop where
  nonempty : Nonempty (Opening text)
  toInt_eq : ∀ o : Opening text,
    v.toInt = (max (-2 ^ 63) (min o.amount (2 ^ 63 - 1))).bmod (2 ^ 32)
  eq_zero : ∀ o : Opening text, o.digits = [] → v = 0

theorem readsAs_toInt32 (text : Bytes) : ReadsAs text (toInt32 text) where
  nonempty := Opening.nonempty text
  toInt_eq o := by
    rw [toInt32_eq, o.leading_eq, Int32.toInt_ofInt]
    rfl
  eq_zero o h := by
    rw [toInt32_eq, o.leading_eq, Opening.amount, h]
    simp [places, clamp64]

theorem toInt32_signed (v : Int32) : toInt32 (signed v.toInt) = v := by
  have hl := v.le_toInt
  have hu := v.toInt_lt
  have hc : clamp64 v.toInt = v.toInt := by
    unfold clamp64
    omega
  rw [toInt32_eq, (isSigned_signed _).leading_eq, hc, Int32.ofInt_toInt]

end HeapGuard.Numeral
