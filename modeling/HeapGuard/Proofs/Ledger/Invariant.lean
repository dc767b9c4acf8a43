import HeapGuard.Proofs.Ledger.Probing
import Mathlib.Algebra.GroupWithZero.Nat

/-! # The invariant of the ledger

A ledger is sound if its table is chained and its two totals are those of its entries.
On a sound ledger each operation is described by what it does to the entries: where
they lie in the table does not matter.
-/

namespace HeapGuard.Ledger

open scoped List

variable {N : Nat} {t : Ledger N} {a : Nat} {e : Entry} {j : Fin N}

structure Sound (t : Ledger N) : Prop where
  chained : Chained t.slots
  live_eq : t.live = t.entries.length
  liveBytes_eq : t.liveBytes = (t.entries.map Entry.size).sum

theorem mem_toList_iff {slots : Vector Slot N} {s : Slot} :
    s ∈ slots.toList ↔ ∃ j : Fin N, slots.get j = s := by
  rw [Vector.mem_toList_iff, Vector.mem_iff_getElem]
  exact ⟨fun ⟨i, hi, h⟩ => ⟨⟨i, hi⟩, h⟩, fun ⟨j, h⟩ => ⟨j, j.isLt, h⟩⟩

theorem occupant_eq_some {s : Slot} : s.occupant = some e ↔ s = .occupied e := by
  cases s <;> simp [Slot.occupant]

theorem mem_entries_iff : e ∈ t.entries ↔ ∃ j, t.slots.get j = .occupied e := by
  simp only [entries, List.mem_filterMap, mem_toList_iff, occupant_eq_some]
  constructor
  · rintro ⟨_, ⟨j, rfl⟩, h⟩
    exact ⟨j, h⟩
  · rintro ⟨j, h⟩
    exact ⟨_, ⟨j, rfl⟩, h⟩

theorem length_entries_le (t : Ledger N) : t.entries.length ≤ N := by
  have hle := List.length_filterMap_le Slot.occupant t.slots.toList
  rwa [Vector.length_toList] at hle

theorem length_entries_lt_iff : t.entries.length < N ↔ ∃ j, (t.slots.get j).occupant = none := by
  have hlen : t.slots.toList.length = N := Vector.length_toList
  rw [entries, List.length_filterMap_eq_countP, ← not_iff_not, not_lt, not_exists]
  constructor
  · intro h j hj
    have hall := List.countP_eq_length.mp (le_antisymm List.countP_le_length (hlen.le.trans h))
    have := hall _ (mem_toList_iff.mpr ⟨j, rfl⟩)
    simp [hj] at this
  · intro h
    have hall : ∀ s ∈ t.slots.toList, s.occupant.isSome = true := by
      intro s hs
      obtain ⟨j, rfl⟩ := mem_toList_iff.mp hs
      exact Option.isSome_iff_ne_none.mpr (h j)
    rw [List.countP_eq_length.mpr hall, hlen]

theorem filterMap_set_perm {α β : Type} {f : α → Option β} {l : List α} {i : Nat} {x : α} {b : β}
    (hi : i < l.length) (h : f l[i] = none) (hx : f x = some b) :
    (l.set i x).filterMap f ~ b :: l.filterMap f := by
  induction l generalizing i with
  | nil => cases hi
  | cons y l ih =>
    cases i with
    | zero =>
      rw [List.getElem_cons_zero] at h
      simp [h, hx]
    | succ i =>
      rw [List.getElem_cons_succ] at h
      have hp := ih (Nat.lt_of_succ_lt_succ hi) h
      rw [List.set_cons_succ, List.filterMap_cons, List.filterMap_cons]
      cases f y with
      | none => exact hp
      | some c => exact (hp.cons c).trans (List.Perm.swap b c _)

theorem entries_enter_perm (l b : Nat) (h : (t.slots.get j).occupant = none) :
    (t.apply (.enter j e l b)).entries ~ e :: t.entries := by
  simp only [entries, apply, Vector.toList_set]
  exact filterMap_set_perm (by simp) (by rw [Vector.getElem_toList]; exact h) rfl

theorem entries_vacate_perm (l b : Nat) (h : t.slots.get j = .occupied e) :
    t.entries ~ e :: (t.apply (.vacate j l b)).entries := by
  have hset : (t.slots.toList.set j .vacated).set j (.occupied e) = t.slots.toList := by
    rw [List.set_set, ← h]
    exact List.set_getElem_self (by simp)
  simp only [entries, apply, Vector.toList_set]
  conv_lhs => rw [← hset]
  exact filterMap_set_perm (by simp) (by simp [Slot.occupant]) rfl

/-- Entering a block keeps a ledger sound: no empty slot lies before the free one that is found. -/
theorem Sound.enter (ht : t.Sound) {i : Fin N} (hi : home N e.addr = .ok i)
    (hf : freeFrom t.slots N i = some j) :
    (t.apply (.enter j e (t.live + 1) (t.liveBytes + e.size))).Sound := by
  obtain ⟨n, hn, hj, hfree, hbusy⟩ := freeFrom_eq_some hf
  have hp := entries_enter_perm (t.live + 1) (t.liveBytes + e.size) (e := e) hfree
  refine ⟨ht.chained.set j (by simp) ?_, ?_, ?_⟩
  · rintro _ i' ⟨⟩ hi'
    obtain rfl : i' = i := by simpa [hi'] using hi
    refine ⟨n, hn, hj, fun m hm => ?_⟩
    obtain ⟨e', he'⟩ := hbusy m hm
    simp [he']
  · have hl := hp.length_eq
    rw [List.length_cons, ← ht.live_eq] at hl
    exact hl.symm
  · have hs := (hp.map Entry.size).sum_nat
    rw [List.map_cons, List.sum_cons, ← ht.liveBytes_eq, Nat.add_comm e.size] at hs
    exact hs.symm

theorem Sound.vacate (ht : t.Sound) (h : t.slots.get j = .occupied e) :
    (t.apply (.vacate j (t.live - 1) (t.liveBytes - e.size))).Sound := by
  have hp := entries_vacate_perm (t.live - 1) (t.liveBytes - e.size) h
  refine ⟨ht.chained.set j (by simp) (by simp), ?_, ?_⟩
  · have hl := hp.length_eq
    rw [List.length_cons, ← ht.live_eq] at hl
    exact Nat.sub_eq_of_eq_add hl
  · have hs := (hp.map Entry.size).sum_nat
    rw [List.map_cons, List.sum_cons, ← ht.liveBytes_eq, Nat.add_comm e.size] at hs
    exact Nat.sub_eq_of_eq_add hs

theorem entries_empty (N : Nat) : (empty N).entries = [] := by
  rw [List.eq_nil_iff_forall_not_mem]
  intro e h
  obtain ⟨j, hj⟩ := mem_entries_iff.mp h
  have hj' : (empty N).slots.get j = .empty := Vector.getElem_replicate j.isLt
  rw [hj'] at hj
  cases hj

theorem sound_empty (N : Nat) : (empty N).Sound :=
  ⟨chained_empty N, by rw [entries_empty]; rfl, by rw [entries_empty]; rfl⟩

theorem exists_freeFrom_eq_some (hroom : t.entries.length < N) (i : Fin N) :
    ∃ j, freeFrom t.slots N i = some j := by
  cases hf : freeFrom t.slots N i with
  | none =>
    obtain ⟨j, hj⟩ := length_entries_lt_iff.mp hroom
    obtain ⟨n, hn, rfl⟩ := exists_probe_eq i j
    obtain ⟨e, he⟩ := freeFrom_eq_none hf n hn
    simp [he, Slot.occupant] at hj
  | some j => exact ⟨j, rfl⟩

section Operations

variable (hN : 0 < N)
include hN

/-- A block is entered as long as there is room and the total stays a 64-bit number. -/
theorem entering_of_room (ht : t.Sound) (hroom : t.entries.length < N)
    (hfit : t.liveBytes + e.size < 2 ^ 64) :
    ∃ c, t.entering e = .ok (some c) ∧ (t.apply c).Sound ∧ (t.apply c).entries ~ e :: t.entries := by
  obtain ⟨i, hi⟩ := home_eq_ok hN e.addr
  obtain ⟨j, hf⟩ := exists_freeFrom_eq_some hroom i
  obtain ⟨_, _, _, hfree, _⟩ := freeFrom_eq_some hf
  have hadd : addChecked t.liveBytes e.size = .ok (t.liveBytes + e.size) := if_pos hfit
  refine ⟨_, ?_, ht.enter hi hf, entries_enter_perm _ _ hfree⟩
  simp [entering, hi, hf, hadd, bind, Except.bind, pure, Except.pure]

theorem entering_of_full (hfull : N ≤ t.entries.length) : t.entering e = .ok none := by
  obtain ⟨i, hi⟩ := home_eq_ok hN e.addr
  cases hf : freeFrom t.slots N i with
  | none => simp [entering, hi, hf, bind, Except.bind, pure, Except.pure]
  | some j =>
    obtain ⟨_, _, _, hfree, _⟩ := freeFrom_eq_some hf
    exact absurd (length_entries_lt_iff.mpr ⟨j, hfree⟩) (not_lt.mpr hfull)

theorem find_of_absent (ha : ∀ e ∈ t.entries, e.addr ≠ a) : t.find a = .ok none := by
  obtain ⟨i, hi⟩ := home_eq_ok hN a
  cases hf : findFrom t.slots a N i with
  | none => simp [find, hi, hf, bind, Except.bind, pure, Except.pure]
  | some r =>
    obtain ⟨hj, he⟩ := findFrom_eq_some hf
    exact absurd he (ha r.2 (mem_entries_iff.mpr ⟨_, hj⟩))

theorem find_of_mem (ht : t.Sound) (he : e ∈ t.entries) (ha : e.addr = a) :
    ∃ j e', t.find a = .ok (some (j, e')) ∧ t.slots.get j = .occupied e' ∧ e'.addr = a := by
  obtain ⟨i, hi⟩ := home_eq_ok hN a
  obtain ⟨j, hj⟩ := mem_entries_iff.mp he
  obtain ⟨n, hn, rfl, hc⟩ := ht.chained j e i hj (by rw [ha, hi])
  cases hf : findFrom t.slots a N i with
  | none => exact absurd hf (findFrom_ne_none hn hj ha hc)
  | some r =>
    refine ⟨r.1, r.2, ?_, findFrom_eq_some hf⟩
    simp [find, hi, hf, bind, Except.bind, pure, Except.pure]

end Operations

theorem lookup_eq_of_find {r : Option (Fin N × Entry)} (h : t.find a = .ok r) :
    t.lookup a = .ok (r.map Prod.snd) := by
  simp [lookup, h, bind, Except.bind, pure, Except.pure]

theorem striking_eq_none_of_find (h : t.find a = .ok none) : t.striking a = .ok none := by
  simp [striking, h, bind, Except.bind, pure, Except.pure]

/-- The entry that is found can be struck without a trap: it is counted in both totals. -/
theorem Sound.striking_of_find (ht : t.Sound) (h : t.find a = .ok (some (j, e)))
    (hj : t.slots.get j = .occupied e) :
    ∃ c, t.striking a = .ok (some (e, c)) ∧ (t.apply c).Sound ∧
      t.entries ~ e :: (t.apply c).entries := by
  have hp := entries_vacate_perm (t.live - 1) (t.liveBytes - e.size) hj
  have hlive : 1 ≤ t.live := by
    rw [ht.live_eq, hp.length_eq, List.length_cons]
    omega
  have hbytes : e.size ≤ t.liveBytes := by
    rw [ht.liveBytes_eq, (hp.map Entry.size).sum_nat, List.map_cons, List.sum_cons]
    omega
  refine ⟨_, ?_, ht.vacate hj, hp⟩
  simp [striking, h, subChecked, hlive, hbytes, bind, Except.bind, pure, Except.pure]

end HeapGuard.Ledger
