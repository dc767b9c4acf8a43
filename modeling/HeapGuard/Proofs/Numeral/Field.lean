import HeapGuard.Numeral.Field
import HeapGuard.Proofs.Numeral.Decimal

/-! # Numbers in fields

A number that fits into a field is written there in its decimal form, flush right,
whatever the field held. The cells in front of the number are left alone.
-/

namespace HeapGuard.Numeral

variable {n : Nat}

/-- The text stands flush right, and the cells in front of it are those of `f`. -/
structure Written.Flush (w : Written n) (f : Field n) (text : Bytes) : Prop where
  start_add : w.start + text.length = n
  toList_eq : w.cells.toList = f.toList.take w.start ++ text

theorem Written.Flush.text_eq {w : Written n} {f : Field n} {text : Bytes} (h : w.Flush f text) :
    w.text = text := by
  have hlen : (f.toList.take w.start).length = w.start := by
    have := h.start_add
    rw [List.length_take, Vector.length_toList]
    omega
  rw [Written.text, h.toList_eq]
  exact List.drop_left' hlen

namespace Field

theorem toList_setIfInBounds_of_lt (f : Field n) {i : Nat} (hi : i < n) (b : UInt8) :
    (f.setIfInBounds i b).toList = f.toList.take i ++ b :: f.toList.drop (i + 1) := by
  rw [Vector.toList_setIfInBounds, List.set_eq_take_append_cons_drop, if_pos]
  rwa [Vector.length_toList]

theorem putDigits_eq (f : Field n) {i v : Nat} (hi : i ≤ n) (hpos : 0 < i) (hv : v < 10 ^ i) :
    (f.putDigits i v).start + (decimal v).length = i ∧
      (f.putDigits i v).cells.toList =
        f.toList.take (f.putDigits i v).start ++ (decimal v ++ f.toList.drop i) := by
  induction i generalizing f v with
  | zero => cases hpos
  | succ i ih =>
    have hset := f.toList_setIfInBounds_of_lt hi (digit (v % 10))
    rw [putDigits]
    split
    · next hd =>
      -- the last digit to be written
      have hlt : v < 10 := Nat.lt_of_div_eq_zero (by decide) hd
      have hdec : decimal v = [digit (v % 10)] := by rw [decimal, if_pos hlt, Nat.mod_eq_of_lt hlt]
      rw [hdec]
      exact ⟨rfl, hset⟩
    · next hd =>
      have hge : ¬ v < 10 := fun hlt => hd (Nat.div_eq_of_lt hlt)
      have hdec : decimal v = decimal (v / 10) ++ [digit (v % 10)] := by rw [decimal, if_neg hge]
      have hdiv : v / 10 < 10 ^ i := Nat.div_lt_of_lt_mul (by rwa [Nat.mul_comm, ← Nat.pow_succ])
      have hpos' : 0 < i := by
        rcases Nat.eq_zero_or_pos i with rfl | h
        · omega
        · exact h
      obtain ⟨hs, hl⟩ := ih (f.setIfInBounds i (digit (v % 10))) (Nat.le_of_succ_le hi) hpos' hdiv
      have hle : (putDigits (f.setIfInBounds i (digit (v % 10))) i (v / 10)).start ≤ i := by omega
      have hlen : (f.toList.take i).length = i := by
        rw [List.length_take, Vector.length_toList]
        omega
      refine ⟨?_, ?_⟩
      · rw [hdec, List.length_append, ← Nat.add_assoc, hs]
        rfl
      · rw [hl, hdec, hset, List.take_append_of_le_length (by omega), List.take_take,
          Nat.min_eq_left hle, List.drop_left' hlen, List.append_assoc, List.singleton_append]

/-- A number that fits into the field is written in its decimal form. -/
theorem flush_putDecimal (f : Field n) {v : Nat} (hn : 0 < n) (hv : v < 10 ^ n) :
    (f.putDecimal v).Flush f (decimal v) := by
  obtain ⟨hs, hl⟩ := f.putDigits_eq (Nat.le_refl n) hn hv
  rw [List.drop_eq_nil_of_le (by rw [Vector.length_toList]), List.append_nil] at hl
  exact ⟨hs, hl⟩

theorem toList_putBytes (f : Field n) {i : Nat} {bs : Bytes} (h : i + bs.length ≤ n) :
    (f.putBytes i bs).toList = f.toList.take i ++ (bs ++ f.toList.drop (i + bs.length)) := by
  induction bs generalizing f i with
  | nil => rw [putBytes, List.nil_append, List.length_nil, Nat.add_zero, List.take_append_drop]
  | cons b bs ih =>
    rw [List.length_cons] at h
    have hi : i < f.toList.length := by
      rw [Vector.length_toList]
      omega
    have hlen : (f.toList.take i ++ [b]).length = i + 1 := by
      rw [List.length_append, List.length_take_of_le (Nat.le_of_lt hi), List.length_singleton]
    have hset : (f.setIfInBounds i b).toList =
        (f.toList.take i ++ [b]) ++ f.toList.drop (i + 1) := by
      rw [f.toList_setIfInBounds_of_lt (by omega), List.append_assoc, List.singleton_append]
    rw [putBytes, ih _ (by omega), hset, List.take_left' hlen, List.drop_append, hlen,
      List.drop_eq_nil_of_le (by omega), List.nil_append, List.drop_drop, List.append_assoc,
      List.singleton_append, List.cons_append, List.length_cons]
    congr 4
    omega

theorem flush_putStatus (f : Field n) {s : Int} (hv : s.natAbs < 10 ^ 20) (hn : 20 < n) :
    (f.putStatus s).Flush f (signed s) := by
  have hlen : (decimal s.natAbs).length ≤ 20 := length_decimal_le (by decide) hv
  have hbytes : (f.putBytes (n - (decimal s.natAbs).length) (decimal s.natAbs)).toList = _ :=
    f.toList_putBytes (by omega)
  rw [Nat.sub_add_cancel (by omega), List.drop_eq_nil_of_le (by rw [Vector.length_toList]),
    List.append_nil] at hbytes
  have hfront : (f.toList.take (n - (decimal s.natAbs).length)).length =
      n - (decimal s.natAbs).length := by
    rw [List.length_take, Vector.length_toList]
    omega
  unfold putStatus signed
  rw [((blank 20).flush_putDecimal (by decide) hv).text_eq]
  by_cases hs : s < 0
  · rw [if_pos hs, if_pos hs]
    constructor
    · rw [List.length_cons]
      dsimp only
      omega
    · dsimp only
      have hcell : n - (decimal s.natAbs).length - 1 <
          (f.toList.take (n - (decimal s.natAbs).length) ++ decimal s.natAbs).length := by
        rw [List.length_append, hfront]
        omega
      rw [Vector.toList_setIfInBounds, hbytes, List.set_eq_take_append_cons_drop, if_pos hcell,
        List.take_append_of_le_length (by omega), List.take_take, Nat.min_eq_left (by omega),
        Nat.sub_add_cancel (by omega), List.drop_left' hfront]
  · rw [if_neg hs, if_neg hs]
    exact ⟨Nat.sub_add_cancel (by omega), hbytes⟩

end Field

theorem decimalText_eq {v : Nat} (hv : v < 2 ^ 64) : decimalText v = decimal v :=
  ((Field.blank 20).flush_putDecimal (by decide) (by omega)).text_eq

end HeapGuard.Numeral
