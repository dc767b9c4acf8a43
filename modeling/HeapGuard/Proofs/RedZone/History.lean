import HeapGuard.Proofs.RedZone

/-! # What a check remembers

A check tells of each zone whether somewhere in it the byte that came last is no canary.
Bytes come into a zone with the block itself, by filling and by single writes. Poisoning does
not reach the zones, and a write between them is not seen.
-/

namespace HeapGuard.RedZone

variable {base size total x : Nat} {m m' m₀ : Memory} {cs : List Command}

/-- What a command puts at an offset that lies in a zone. -/
def Command.leaves (x : Nat) : Command → Option UInt8
  | fill => some canary
  | set offset b => if offset = x then some b else none
  | poison | check => none

/-- The byte that came last to an offset that lies in a zone: from the latest command that put one
there, or else with the block. The last command stands first. -/
def latest (base : Nat) (m₀ : Memory) (cs : List Command) (x : Nat) : UInt8 :=
  (cs.findSome? (Command.leaves x)).getD (m₀.get (base + x))

def after (base size total : Nat) (m₀ : Memory) : List Command → Memory
  | [] => m₀
  | c :: cs => c.effect base size total (after base size total m₀ cs)

/-- Filling and poisoning keep to their bytes, and a check is decided by the bytes that came last
to the first and the last sixteen offsets of the block. -/
structure Remembers (base size total : Nat) (m : Memory) (last : Nat → UInt8) : Prop where
  fill_changes : ∀ a, (fill m base size).get a ≠ m.get a →
    (base ≤ a ∧ a < base + width) ∨ (base + total - width ≤ a ∧ a < base + total)
  check_fill : check (fill m base size) base size = none
  poison_changes : ∀ a, (poison m (base + width) size).get a ≠ m.get a →
    base + width ≤ a ∧ a < base + width + size
  poison_get : ∀ x, width ≤ x → x < width + size →
    (poison m (base + width) size).get (base + x) = poisoned
  check_poison : check (poison m (base + width) size) base size = check m base size
  check_set : ∀ x b, width ≤ x → x < width + size →
    check (m.set (base + x) b) base size = check m base size
  check_eq_none : check m base size = none ↔
    (∀ x < width, last x = canary) ∧ ∀ x, total - width ≤ x → x < total → last x = canary
  check_eq_some : ∀ d, check m base size = some d ↔
    (d.before = true ↔ ∃ x < width, last x ≠ canary) ∧
      (d.after = true ↔ ∃ x, total - width ≤ x ∧ x < total ∧ last x ≠ canary) ∧
      (d.before = true ∨ d.after = true)

theorem eq_of_totalSize (h : totalSize size = .ok total) : total = size + 2 * width := by
  rcases Nat.lt_or_ge (size + 2 * width) Memory.top with hfits | hhuge
  · rw [totalSize_of_fits hfits] at h
    cases h
    rfl
  · rw [totalSize_of_huge hhuge] at h
    cases h

section Check

theorem intact_congr {a : Nat} (h : ∀ x, a ≤ x → x < a + width → m'.get x = m.get x) :
    intact m' a = intact m a := by
  rw [Bool.eq_iff_iff, intact_iff, intact_iff]
  constructor
  · intro hc x hl hr
    rw [← h x hl hr, hc x hl hr]
  · intro hc x hl hr
    rw [h x hl hr, hc x hl hr]

theorem check_congr (h : ∀ x, InZone base size x → m'.get x = m.get x) :
    check m' base size = check m base size := by
  have hbefore : intact m' base = intact m base := intact_congr fun x hl hr => h x (.inl ⟨hl, hr⟩)
  have hafter : intact m' (base + width + size) = intact m (base + width + size) :=
    intact_congr fun x hl hr => h x (.inr ⟨hl, hr⟩)
  rw [check, check, hbefore, hafter]

theorem check_eq_some_iff {d : Damage} : check m base size = some d ↔
    (d.before = true ↔ ¬ intact m base = true) ∧
      (d.after = true ↔ ¬ intact m (base + width + size) = true) ∧
      (d.before = true ∨ d.after = true) := by
  rcases d with ⟨before, after⟩
  unfold check
  cases intact m base <;> cases intact m (base + width + size) <;> cases before <;> cases after <;>
    simp

theorem intact_add_iff {lo : Nat} {last : Nat → UInt8}
    (h : ∀ x, lo ≤ x → x < lo + width → m.get (base + x) = last x) :
    intact m (base + lo) = true ↔ ∀ x, lo ≤ x → x < lo + width → last x = canary := by
  rw [intact_iff]
  constructor
  · intro hc x hl hr
    rw [← h x hl hr]
    exact hc (base + x) (by omega) (by omega)
  · intro hc a hl hr
    obtain ⟨x, rfl⟩ := Nat.exists_eq_add_of_le (Nat.le_of_add_right_le hl)
    rw [h x (by omega) (by omega)]
    exact hc x (by omega) (by omega)

theorem check_poison : check (poison m (base + width) size) base size = check m base size := by
  apply check_congr
  rintro x (⟨-, hr⟩ | ⟨hl, -⟩)
  · exact get_poison_of_outside (.inl hr)
  · exact get_poison_of_outside (.inr hl)

theorem check_set_of_user (b : UInt8) (hl : width ≤ x) (hr : x < width + size) :
    check (m.set (base + x) b) base size = check m base size := by
  apply check_congr
  rintro a hz
  rw [Memory.get_set, if_neg]
  rintro ⟨rfl, -⟩
  unfold InZone at hz
  omega

end Check

section Block

variable (hbase : base + (size + 2 * width) ≤ Memory.top)
include hbase

theorem get_effect (c : Command) (hx : InZone 0 size x) :
    (c.effect base size (size + 2 * width) m).get (base + x) =
      (c.leaves x).getD (m.get (base + x)) := by
  unfold InZone at hx
  cases c with
  | fill => exact get_fill_of_inZone (by omega) (by unfold InZone; omega)
  | poison => exact get_poison_of_outside (by omega)
  | check => rfl
  | set offset b =>
    have hlt : base + x < Memory.top := by omega
    simp only [Command.effect, Command.leaves]
    by_cases ho : offset = x
    · rw [if_pos (by omega), if_pos ho, Memory.get_set, if_pos ⟨by omega, hlt⟩, Option.getD_some]
    · rw [if_neg ho, Option.getD_none]
      split
      · rw [Memory.get_set, if_neg (by omega)]
      · rfl

theorem get_after (m₀ : Memory) (cs : List Command) (hx : InZone 0 size x) :
    (after base size (size + 2 * width) m₀ cs).get (base + x) = latest base m₀ cs x := by
  induction cs with
  | nil => rfl
  | cons c cs ih =>
    rw [after, get_effect hbase c hx, ih, latest, latest, List.findSome?_cons]
    cases c.leaves x <;> rfl

theorem check_fill : check (fill m base size) base size = none :=
  check_eq_none_iff.mpr fun _ hx => get_fill_of_inZone (by omega) hx

end Block

/-- Whatever a block held at first and whatever was done to it, a check is decided by the bytes
that came last to its zones. -/
theorem after_remembers (htotal : totalSize size = .ok total) (hbase : base + total ≤ Memory.top)
    (m₀ : Memory) (cs : List Command) :
    Remembers base size total (after base size total m₀ cs) (latest base m₀ cs) := by
  obtain rfl := eq_of_totalSize htotal
  have hzone (x : Nat) (hx : InZone 0 size x) := get_after hbase m₀ cs hx
  -- from here on the commands matter only by the bytes they have left in the zones
  generalize after base size (size + 2 * width) m₀ cs = m at hzone
  have hbefore : intact m base = true ↔ ∀ x < width, latest base m₀ cs x = canary := by
    have h : intact m (base + 0) = true ↔ _ := intact_add_iff fun x hl hr =>
      hzone x (.inl ⟨hl, hr⟩)
    simpa using h
  have hafter : intact m (base + width + size) = true ↔ ∀ x, size + 2 * width - width ≤ x →
      x < size + 2 * width → latest base m₀ cs x = canary := by
    have h : intact m (base + (width + size)) = true ↔ _ := intact_add_iff fun x hl hr =>
      hzone x (.inr ⟨by omega, by omega⟩)
    have hlo : size + 2 * width - width = width + size := by omega
    have hhi : size + 2 * width = width + size + width := by omega
    rwa [hlo, hhi, Nat.add_assoc]
  constructor
  · intro a ha
    by_contra hno
    exact ha (get_fill_of_not_inZone (by omega) (by unfold InZone; omega))
  · exact check_fill hbase
  · intro a ha
    by_contra hno
    exact ha (get_poison_of_outside (by omega))
  · intro x hl hr
    exact get_poison_of_inside (by omega) (by omega) (by omega)
  · exact check_poison
  · intro x b hl hr
    exact check_set_of_user b hl hr
  · rw [check_eq_none_iff_intact, hbefore, hafter]
  · intro d
    rw [check_eq_some_iff, hbefore, hafter]
    simp only [not_forall, exists_prop, ne_eq]

/-- Without user bytes the zones touch: a byte before their border is repaired by filling, and the
byte behind it counts for the second zone alone. -/
theorem after_remembers_touching :
    let cs : List Command := [.set 16 0x21, .poison, .fill, .set 15 0x21]
    totalSize 0 = .ok 32 ∧
      check (after 0x1000 0 32 .zeroed cs) 0x1000 0 = some ⟨false, true⟩ ∧
      check (after 0x1000 0 32 .zeroed cs.tail) 0x1000 0 = none ∧
      check (fill (after 0x1000 0 32 .zeroed cs) 0x1000 0) 0x1000 0 = none := by
  intro cs
  have hnow : Remembers 0x1000 0 32 _ _ := after_remembers rfl (by decide) .zeroed cs
  have hbefore : Remembers 0x1000 0 32 _ _ := after_remembers rfl (by decide) .zeroed cs.tail
  refine ⟨rfl, ?_, ?_, hnow.check_fill⟩
  · apply (hnow.check_eq_some _).mpr
    exact ⟨iff_of_false (by decide) (by decide),
      iff_of_true rfl ⟨16, by decide, by decide, by decide⟩, .inr rfl⟩
  · apply hbefore.check_eq_none.mpr
    exact ⟨fun _ _ => rfl, fun _ _ _ => rfl⟩

end HeapGuard.RedZone
