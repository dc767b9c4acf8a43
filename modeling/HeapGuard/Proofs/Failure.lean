import HeapGuard.Proofs.Report

/-! # The texts of failures

A failure has a message and a line for the error stream. The two are worded differently and
their numbers are written in different ways, but both carry the numbers of the failure, in full
and in the same order, and the words tell which kind of failure it is.
-/

namespace HeapGuard

open Numeral

/-- There is one newline in the text, at its end. -/
def Bytes.IsLine (text : Bytes) : Prop := ∃ line, text = line ++ [10] ∧ 10 ∉ line

theorem Bytes.IsLine.append {s t : Bytes} (hs : 10 ∉ s) (ht : t.IsLine) : IsLine (s ++ t) := by
  obtain ⟨line, rfl, hline⟩ := ht
  refine ⟨s ++ line, (List.append_assoc _ _ _).symm, ?_⟩
  rw [List.mem_append]
  rintro (h | h)
  · exact hs h
  · exact hline h

namespace Numeral

def isNumeral (b : UInt8) : Bool := isDigit b || b == 45

def isWords (text : Bytes) : Bool := text.all fun b => !isNumeral b

theorem isWords_cons {c : UInt8} {w : Bytes} :
    isWords (c :: w) = true ↔ isNumeral c = false ∧ isWords w = true := by
  simp [isWords]

/-- The numbers that stand in a text, each as long as it can be. -/
def numerals (text : Bytes) : List Bytes :=
  (text.splitOnP fun b => !isNumeral b).filter fun piece => piece ≠ []

section Numerals

variable {s t w : Bytes} {c : UInt8} {i j : Int}

theorem numerals_nil : numerals [] = [] := by
  simp [numerals]

theorem numerals_append_cons (hc : isNumeral c = false) (s t : Bytes) :
    numerals (s ++ c :: t) = numerals s ++ numerals t := by
  rw [numerals, List.splitOnP_append_cons s t (by simp [hc]), List.filter_append]
  rfl

theorem numerals_words_append (hw : isWords w = true) (t : Bytes) :
    numerals (w ++ t) = numerals t := by
  induction w with
  | nil => rfl
  | cons b w ih =>
    obtain ⟨hb, hw⟩ := isWords_cons.mp hw
    have hpart := numerals_append_cons hb [] (w ++ t)
    rwa [numerals_nil, List.nil_append, List.nil_append, ih hw] at hpart

theorem numerals_words (hw : isWords w = true) : numerals w = [] := by
  have h := numerals_words_append hw []
  rwa [List.append_nil, numerals_nil] at h

theorem isNumeral_of_mem_signed {b : UInt8} (hb : b ∈ signed i) : isNumeral b = true := by
  have hdigit (hb : b ∈ decimal i.natAbs) : isNumeral b = true := by
    simp [isNumeral, isDigit_of_mem_decimal hb]
  unfold signed at hb
  split at hb
  · rcases List.mem_cons.mp hb with rfl | hb
    · rfl
    · exact hdigit hb
  · exact hdigit hb

theorem numerals_signed (i : Int) : numerals (signed i) = [signed i] := by
  have hne : signed i ≠ [] := List.ne_nil_of_length_pos (length_signed_pos i)
  rw [numerals, List.splitOnP_eq_singleton fun b hb => by simp [isNumeral_of_mem_signed hb]]
  simp [hne]

theorem numerals_single (hs : isWords s = true) (i : Int)
    (ht : isWords t = true) : numerals (s ++ signed i ++ t) = [signed i] := by
  rw [List.append_assoc, numerals_words_append hs]
  cases t with
  | nil => rw [List.append_nil, numerals_signed]
  | cons c t =>
    obtain ⟨hc, ht⟩ := isWords_cons.mp ht
    rw [numerals_append_cons hc, numerals_signed, numerals_words ht, List.append_nil]

theorem numerals_pair (hs : isWords s = true) (i : Int)
    (hw : isWords w = true) (hne : w ≠ []) (j : Int)
    (ht : isWords t = true) :
    numerals (s ++ signed i ++ w ++ signed j ++ t) = [signed i, signed j] := by
  cases w with
  | nil => exact absurd rfl hne
  | cons c w =>
    obtain ⟨hc, hw⟩ := isWords_cons.mp hw
    -- the first byte of the words parts the text between the two numbers
    have hfirst : numerals (s ++ signed i) = [signed i] := by
      rw [numerals_words_append hs, numerals_signed]
    have hparts : s ++ signed i ++ c :: w ++ signed j ++ t =
        (s ++ signed i) ++ c :: (w ++ signed j ++ t) := by simp
    rw [hparts, numerals_append_cons hc, hfirst, numerals_single hw j ht]
    rfl

theorem signed_natCast (n : Nat) : signed n = decimal n := by
  rw [signed, if_neg (by omega), Int.natAbs_natCast]

theorem signed_injective (h : signed i = signed j) : i = j := by
  rw [← (isSigned_signed i).leading_eq, h, (isSigned_signed j).leading_eq]

end Numerals

end Numeral

namespace Failure

variable {f g : Failure}

/-- Numbers of bytes have 64 bits, and so does a status with its sign. -/
def IsWord : Failure → Prop
  | allocation n => n < 2 ^ 64
  | write s => -2 ^ 63 ≤ s ∧ s < 2 ^ 63
  | truncated w n => w < 2 ^ 64 ∧ n < 2 ^ 64

instance (f : Failure) : Decidable f.IsWord :=
  match f with
  | allocation n => inferInstanceAs (Decidable (n < 2 ^ 64))
  | write s => inferInstanceAs (Decidable (-2 ^ 63 ≤ s ∧ s < 2 ^ 63))
  | truncated w n => inferInstanceAs (Decidable (w < 2 ^ 64 ∧ n < 2 ^ 64))

def amounts : Failure → List Int
  | allocation n => [n]
  | write s => [s]
  | truncated w n => [w, n]

def kind : Failure → Fin 3
  | allocation _ => 0
  | write _ => 1
  | truncated _ _ => 2

theorem ext_amounts (hk : f.kind = g.kind) (ha : f.amounts = g.amounts) : f = g := by
  cases f <;> cases g <;> simp_all [kind, amounts]

theorem numerals_message (f : Failure) : numerals f.message = f.amounts.map signed := by
  cases f with
  | allocation n =>
    rw [message, ← signed_natCast, numerals_single rfl _ rfl]
    rfl
  | write s =>
    rw [message, numerals_words_append rfl, numerals_signed]
    rfl
  | truncated w n =>
    rw [message, ← signed_natCast, ← signed_natCast,
      numerals_pair rfl _ rfl (by decide) _ rfl]
    rfl

theorem describe_allocation {n : Nat} (hn : n < 10 ^ 20) :
    (allocation n).describe =
      .ofText "allocation failed, requested " ++ decimal n ++ .ofText " bytes\n" := by
  rw [describe, pieces_allocation hn]
  simp only [List.flatten_cons, List.flatten_nil, List.append_nil, List.append_assoc]

theorem describe_write {s : Int} (hs : s.natAbs < 10 ^ 20) :
    (write s).describe = .ofText "console write failed, status " ++ signed s ++ .ofText "\n" := by
  rw [describe, pieces_write hs]
  simp only [List.flatten_cons, List.flatten_nil, List.append_nil, List.append_assoc]

theorem describe_truncated {w n : Nat} (hw : w < 10 ^ 20) (hn : n < 10 ^ 20) :
    (truncated w n).describe =
      .ofText "print output truncated, wrote " ++ decimal w ++ .ofText " of " ++ decimal n ++
        .ofText " bytes\n" := by
  rw [describe, pieces_truncated hw hn]
  simp only [List.flatten_cons, List.flatten_nil, List.append_nil, List.append_assoc]

theorem numerals_describe (hf : f.IsWord) : numerals f.describe = f.amounts.map signed := by
  cases f with
  | allocation n =>
    have hn : n < 10 ^ 20 := Nat.lt_trans hf (by decide)
    rw [describe_allocation hn, ← signed_natCast, numerals_single rfl _ rfl]
    rfl
  | write s =>
    obtain ⟨hl, hu⟩ := hf
    rw [describe_write (by omega), numerals_single rfl _ rfl]
    rfl
  | truncated w n =>
    obtain ⟨hw, hn⟩ := hf
    rw [describe_truncated (by omega) (by omega), ← signed_natCast, ← signed_natCast,
      numerals_pair rfl _ rfl (by decide) _ rfl]
    rfl

/-- A text that carries the numbers and has a first byte of its own for each kind tells failures
apart. -/
theorem eq_of_text_eq {text : Failure → Bytes} {first : Fin 3 → UInt8}
    (hinj : ∀ i j, first i = first j → i = j) (hfirst : ∀ f, (text f).head? = some (first f.kind))
    (hf : numerals (text f) = f.amounts.map signed) (hg : numerals (text g) = g.amounts.map signed)
    (h : text f = text g) : f = g := by
  apply ext_amounts
  · apply hinj
    rw [← Option.some_inj, ← hfirst, h, hfirst]
  · apply List.map_injective_iff.mpr fun i j => signed_injective
    rw [← hf, h, hg]

theorem eq_of_message_eq (h : f.message = g.message) : f = g := by
  have hfirst (f : Failure) : f.message.head? = some (#v[97, 119, 111].get f.kind) := by
    cases f <;> rfl
  exact eq_of_text_eq (by decide) hfirst (numerals_message f) (numerals_message g) h

theorem eq_of_describe_eq (hf : f.IsWord) (hg : g.IsWord) (h : f.describe = g.describe) :
    f = g := by
  have hfirst (f : Failure) : f.describe.head? = some (#v[97, 99, 112].get f.kind) := by
    cases f <;> rfl
  exact eq_of_text_eq (by decide) hfirst (numerals_describe hf) (numerals_describe hg) h

theorem isLine_describe (hf : f.IsWord) : f.describe.IsLine := by
  have hnumber (i : Int) : 10 ∉ signed i := fun h =>
    absurd (isNumeral_of_mem_signed h) (by decide)
  have hbytes : Bytes.IsLine (.ofText " bytes\n") := ⟨Bytes.ofText " bytes", rfl, by decide⟩
  cases f with
  | allocation n =>
    have hn : n < 10 ^ 20 := Nat.lt_trans hf (by decide)
    rw [describe_allocation hn, ← signed_natCast]
    simp only [List.append_assoc]
    exact .append (by decide) (.append (hnumber n) hbytes)
  | write s =>
    obtain ⟨hl, hu⟩ := hf
    rw [describe_write (by omega)]
    simp only [List.append_assoc]
    exact .append (by decide) (.append (hnumber s) ⟨[], rfl, by decide⟩)
  | truncated w n =>
    obtain ⟨hw, hn⟩ := hf
    rw [describe_truncated (by omega) (by omega), ← signed_natCast, ← signed_natCast]
    simp only [List.append_assoc]
    exact .append (by decide) (.append (hnumber w)
      (.append (by decide) (.append (hnumber n) hbytes)))

/-- Neither text loses anything of a failure. The line is one line, and both texts carry the same
numbers in the same order, although the line has put them all through the same field. -/
theorem texts_lose_nothing (hf : f.IsWord) (hg : g.IsWord) :
    (f.describe = g.describe → f = g) ∧ (f.message = g.message → f = g) ∧
      f.describe.IsLine ∧
      numerals f.describe = numerals f.message ∧ numerals f.message = f.amounts.map signed := by
  refine ⟨eq_of_describe_eq hf hg, eq_of_message_eq, isLine_describe hf, ?_, ?_⟩
  · rw [numerals_describe hf, numerals_message]
  · exact numerals_message f

theorem texts_lose_nothing_reused_field :
    numerals (truncated (2 ^ 64 - 1) 7).describe =
        [.ofText "18446744073709551615", .ofText "7"] ∧
      (truncated (2 ^ 64 - 1) 7).describe ≠ (write (-2 ^ 63)).describe := by
  have hf : (truncated (2 ^ 64 - 1) 7).IsWord := by decide
  have hg : (write (-2 ^ 63)).IsWord := by decide
  obtain ⟨hinj, -, -, hsame, heq⟩ := texts_lose_nothing hf hg
  constructor
  · rw [hsame, heq]
    decide +kernel
  · intro h
    cases hinj h

end Failure

end HeapGuard
