import HeapGuard.Proofs.Source.Contract
import Mathlib.Data.List.TakeWhile

/-! # Ranges, texts and words in memory

What is read from a range of addresses depends on the bytes there and on nothing else.
A text goes up to the first zero byte, and a word is read back as it was written.
-/

namespace HeapGuard

namespace Bytes

theorem untilNul_eq_self {b : Bytes} (h : 0 ∉ b) : b.untilNul = b := by
  rw [untilNul, List.takeWhile_eq_self_iff]
  intro x hx
  exact bne_iff_ne.mpr fun h0 => h (h0 ▸ hx)

theorem ne_zero_of_mem_untilNul {b : Bytes} {x : UInt8} (h : x ∈ b.untilNul) : x ≠ 0 := by
  simpa using List.mem_takeWhile_imp h

theorem getD_length_untilNul (b : Bytes) : b[b.untilNul.length]?.getD 0 = 0 := by
  induction b with
  | nil => rfl
  | cons x b ih =>
    by_cases hx : x = 0
    · simp [untilNul, hx]
    · simpa [untilNul, hx] using ih

theorem length_untilNul_le (b : Bytes) : b.untilNul.length ≤ b.length :=
  (List.takeWhile_sublist _).length_le

theorem take_length_untilNul (b : Bytes) : b.take b.untilNul.length = b.untilNul :=
  (List.prefix_iff_eq_take.mp (List.takeWhile_prefix _)).symm

end Bytes

namespace Memory

variable {m m' : Memory} {a n : Nat} {bytes : Bytes}

/-! ## Ranges -/

theorem getElem?_read (m : Memory) (a : Nat) {i : Nat} (hi : i < n) :
    (m.read a n)[i]? = some (m.get (a + i)) := by
  simp [read_eq, hi]

theorem read_inside {offset count : Nat} (h : offset + count ≤ bytes.length)
    (hr : m.read a bytes.length = bytes) :
    m.read (a + offset) count = (bytes.drop offset).take count := by
  apply List.ext_getElem?
  intro i
  rcases Nat.lt_or_ge i count with hi | hi
  · rw [getElem?_read _ _ hi, List.getElem?_take_of_lt hi, List.getElem?_drop, ← hr,
      getElem?_read _ _ (by omega), Nat.add_assoc]
  · rw [List.getElem?_eq_none (by simpa using hi), List.getElem?_eq_none (by simp; omega)]

theorem read_congr (h : ∀ x, Block.Covers ⟨a, n⟩ x → m'.get x = m.get x) :
    m'.read a n = m.read a n := by
  simp only [read_eq]
  refine List.map_congr_left fun i hi => h _ ?_
  rw [List.mem_range] at hi
  exact ⟨Nat.le_add_right _ _, Nat.add_lt_add_left hi _⟩

theorem read_eq_zeros (h : ∀ x, Block.Covers ⟨a, n⟩ x → m.get x = 0) :
    m.read a n = List.replicate n 0 := by
  have hz : m.read a n = zeroed.read a n :=
    read_congr fun x hx => (h x hx).trans (get_zeroed x).symm
  rw [hz, read_eq, List.eq_replicate_iff]
  simp

/-! ## Texts -/

theorem findNul_eq {x : Nat} (ha : a ≤ x) (h₀ : m.get x = 0)
    (hne : ∀ y, a ≤ y → y < x → m.get y ≠ 0) : m.findNul a = x := by
  rcases Nat.lt_trichotomy (m.findNul a) x with h | h | h
  · exact absurd (m.get_findNul a) (hne _ (m.le_findNul a) h)
  · exact h
  · exact absurd h₀ (m.get_ne_zero_of_lt_findNul ha h)

theorem textLength_lt (h₀ : 0 < a) (h : a ≤ top) : m.textLength a < top := by
  have hle : m.findNul a ≤ top := by
    by_contra hlt
    refine m.get_ne_zero_of_lt_findNul h (Nat.not_le.mp hlt) ?_
    rw [get, if_neg (Nat.lt_irrefl _)]
  unfold textLength
  omega

@[simp] theorem length_text (m : Memory) (a : Nat) : (m.text a).length = m.textLength a :=
  length_read ..

/-- The text of bytes with a zero behind them goes up to their first NUL. -/
theorem text_eq_untilNul (hr : m.read a bytes.length = bytes) (h₀ : m.get (a + bytes.length) = 0) :
    m.text a = bytes.untilNul := by
  have hget {i : Nat} (hi : i ≤ bytes.length) : m.get (a + i) = bytes[i]?.getD 0 := by
    rcases Nat.lt_or_eq_of_le hi with hlt | rfl
    · conv_rhs => rw [← hr, getElem?_read m a hlt, Option.getD_some]
    · rw [h₀, List.getElem?_eq_none (Nat.le_refl _), Option.getD_none]
  have hle := bytes.length_untilNul_le
  have hnul : m.findNul a = a + bytes.untilNul.length := by
    apply findNul_eq (Nat.le_add_right _ _)
    · rw [hget hle, Bytes.getD_length_untilNul]
    · intro y hy hlt
      obtain ⟨i, rfl⟩ := Nat.exists_eq_add_of_le hy
      have hi : i < bytes.untilNul.length := by omega
      have htake : bytes[i]? = bytes.untilNul[i]? := by
        rw [← Bytes.take_length_untilNul, List.getElem?_take_of_lt hi]
      rw [hget (by omega), htake, List.getElem?_eq_getElem hi, Option.getD_some]
      exact Bytes.ne_zero_of_mem_untilNul (List.getElem_mem hi)
  have hread : m.read (a + 0) bytes.untilNul.length = _ := read_inside (by omega) hr
  rw [text, textLength, hnul, Nat.add_sub_cancel_left]
  rwa [Nat.add_zero, List.drop_zero, Bytes.take_length_untilNul] at hread

/-! ## Words -/

theorem foldr_wordBytes (k w : Nat) :
    ((List.range k).map fun i => (w >>> (8 * i)).toUInt8).foldr (fun b n => b.toNat + 256 * n) 0 =
      w % 256 ^ k := by
  induction k generalizing w with
  | zero => simp [Nat.mod_one]
  | succ k ih =>
    have hshift (i : Nat) : w >>> (8 * (i + 1)) = (w >>> 8) >>> (8 * i) := by
      rw [← Nat.shiftRight_add, Nat.mul_succ, Nat.add_comm]
    have hrest : ((List.range k).map Nat.succ).map (fun i => (w >>> (8 * i)).toUInt8) =
        (List.range k).map fun i => ((w >>> 8) >>> (8 * i)).toUInt8 := by
      rw [List.map_map]
      exact List.map_congr_left fun i _ => congrArg Nat.toUInt8 (hshift i)
    have hpow : 256 ^ (k + 1) = 256 * 256 ^ k := Nat.pow_succ'
    rw [List.range_succ_eq_map, List.map_cons, hrest, List.foldr_cons, ih, Nat.mul_zero,
      Nat.shiftRight_zero, Nat.toUInt8_eq, UInt8.toNat_ofNat', Nat.shiftRight_eq_div_pow, hpow,
      Nat.mod_mul]

theorem readWord_writeWord (m : Memory) {w : Nat} (ha : a + 8 ≤ top) (hw : w < 2 ^ 64) :
    (m.writeWord a w).readWord a = w := by
  have hlen : (wordBytes w).length = 8 := by simp [wordBytes]
  have hread := m.read_write a (wordBytes w) (by omega)
  rw [hlen] at hread
  rw [readWord, writeWord, hread, wordBytes, foldr_wordBytes]
  exact Nat.mod_eq_of_lt hw

end Memory

end HeapGuard
