import HeapGuard.RedZone
import Mathlib.Order.Basic

/-! # Reading and writing red zones

What a check sees is decided by the bytes of the two zones alone. Filling writes exactly
these bytes and poisoning only bytes between them.
-/

namespace HeapGuard.RedZone

variable {m m' : Memory} {base size x : Nat}

/-- The address lies in one of the two zones of the block that starts at `base`. -/
def InZone (base size x : Nat) : Prop :=
  (base ≤ x ∧ x < base + width) ∨
    (base + width + size ≤ x ∧ x < base + width + size + width)

instance (base size x : Nat) : Decidable (InZone base size x) :=
  inferInstanceAs (Decidable (_ ∨ _))

theorem total_pos (size : Nat) : 0 < size + 2 * width := Nat.add_pos_right _ (by decide)

theorem totalSize_of_fits (h : size + 2 * width < Memory.top) :
    totalSize size = .ok (size + 2 * width) := by
  simp only [Memory.top, width] at h
  have hfront : addChecked width size = .ok (width + size) := if_pos (by simp only [width]; omega)
  have htotal : addChecked (width + size) width = .ok (width + size + width) :=
    if_pos (by simp only [width]; omega)
  have hsum : width + size + width = size + 2 * width := by omega
  rw [totalSize, hfront, ← hsum]
  exact htotal

theorem totalSize_of_huge (h : Memory.top ≤ size + 2 * width) :
    totalSize size = .error .addOverflow := by
  simp only [Memory.top, width] at h
  by_cases hlt : width + size < 0x10000000000000000
  · have hfront : addChecked width size = .ok (width + size) := if_pos hlt
    have htotal : addChecked (width + size) width = .error .addOverflow :=
      if_neg (by simp only [width]; omega)
    rw [totalSize, hfront]
    exact htotal
  · have hfront : addChecked width size = .error .addOverflow := if_neg hlt
    rw [totalSize, hfront]
    rfl

theorem intact_iff {a : Nat} :
    intact m a = true ↔ ∀ x, a ≤ x → x < a + width → m.get x = canary := by
  simp only [intact, Memory.read_eq, List.all_map, List.all_eq_true, List.mem_range,
    Function.comp, beq_iff_eq]
  constructor
  · intro h x hl hr
    have hx := h (x - a) (by omega)
    rwa [Nat.add_sub_cancel' hl] at hx
  · intro h i hi
    exact h (a + i) (by omega) (by omega)

theorem intact_eq_false_iff {a : Nat} :
    intact m a = false ↔ ∃ x, a ≤ x ∧ x < a + width ∧ m.get x ≠ canary := by
  rw [← Bool.not_eq_true, intact_iff]
  simp only [not_forall, exists_prop]

theorem check_eq_none_iff_intact : check m base size = none ↔
    intact m base = true ∧ intact m (base + width + size) = true := by
  simp [check]

theorem check_eq_none_iff : check m base size = none ↔ ∀ x, InZone base size x → m.get x = canary := by
  rw [check_eq_none_iff_intact, intact_iff, intact_iff]
  constructor
  · rintro ⟨h₁, h₂⟩ x (⟨hl, hr⟩ | ⟨hl, hr⟩)
    · exact h₁ x hl hr
    · exact h₂ x hl hr
  · intro h
    exact ⟨fun x hl hr => h x (.inl ⟨hl, hr⟩), fun x hl hr => h x (.inr ⟨hl, hr⟩)⟩

theorem check_of_damage (h : ¬ (intact m base = true ∧ intact m (base + width + size) = true)) :
    check m base size = some ⟨!intact m base, !intact m (base + width + size)⟩ := by
  simp only [check, Bool.and_eq_true, if_neg h]

theorem get_fill (h : base + size + 2 * width ≤ Memory.top) :
    (fill m base size).get x = if InZone base size x then canary else m.get x := by
  simp only [fill, Memory.get_fill, InZone]
  grind

theorem get_fill_of_inZone (h : base + size + 2 * width ≤ Memory.top) (hx : InZone base size x) :
    (fill m base size).get x = canary := by
  rw [get_fill h, if_pos hx]

theorem get_fill_of_not_inZone (h : base + size + 2 * width ≤ Memory.top)
    (hx : ¬ InZone base size x) : (fill m base size).get x = m.get x := by
  rw [get_fill h, if_neg hx]

theorem get_poison_of_inside {user : Nat} (h : user + size ≤ Memory.top) (hl : user ≤ x)
    (hr : x < user + size) : (poison m user size).get x = poisoned := by
  rw [poison, Memory.get_fill, if_pos (by omega)]

theorem get_poison_of_outside {user : Nat} (h : x < user ∨ user + size ≤ x) :
    (poison m user size).get x = m.get x := by
  rw [poison, Memory.get_fill, if_neg (by omega)]

end HeapGuard.RedZone
