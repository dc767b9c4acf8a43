import HeapGuard.Proofs.Ledger.Traps
import Mathlib.Data.Nat.ModEq

/-! # Searches that end early

A search ends at the first empty slot, although there may be entries behind it. In every
ledger that commands lead to it still ends where a search through all slots does: an entry for
the address never lies behind an empty slot. This lasts because a slot that was used once is
never empty again.
-/

namespace HeapGuard

namespace Slot

variable {a : Nat} {s : Slot} {e : Entry}

def isFor (a : Nat) (s : Slot) : Bool := s.occupant.any fun e => e.addr == a

@[simp] theorem isFor_empty : empty.isFor a = false := rfl

@[simp] theorem isFor_vacated : vacated.isFor a = false := rfl

@[simp] theorem isFor_occupied : (occupied e).isFor a = (e.addr == a) := rfl

theorem isFor_iff : s.isFor a = true ↔ ∃ e, s = occupied e ∧ e.addr = a := by
  cases s <;> simp

end Slot

namespace Ledger

variable {N : Nat} {t t' : Ledger N} {a k : Nat} {i j : Fin N} {c : Command} {answer : Answer}

/-- The first slot with an entry for `a` among all slots, in the order in which they are probed
from `i` on. -/
def searchAll (slots : Vector Slot N) (a : Nat) (i : Fin N) : Option (Fin N) :=
  ((List.range N).map (probe i)).find? fun j => (slots.get j).isFor a

theorem probe_inj {m n : Nat} (hm : m < N) (hn : n < N) (h : probe i m = probe i n) : m = n := by
  have hmod : i + m ≡ i + n [MOD N] := Fin.ext_iff.mp h
  exact (Nat.ModEq.add_left_cancel' i hmod).eq_of_lt_of_lt hm hn

section Search

variable {slots : Vector Slot N}

theorem map_probe_succ (i : Fin N) (k : Nat) :
    (List.range (k + 1)).map (probe i) = i :: (List.range k).map (probe (next i)) := by
  simp [List.range_succ_eq_map, Function.comp_def, probe_next]

/-- The early end is harmless if no entry for the address lies behind an empty slot. -/
theorem findFrom_eq_find? (hc : ∀ n < k, (slots.get (probe i n)).isFor a = true →
      ∀ m < n, slots.get (probe i m) ≠ .empty) :
    (findFrom slots a k i).map Prod.fst =
      ((List.range k).map (probe i)).find? fun j => (slots.get j).isFor a := by
  induction k generalizing i with
  | zero => rfl
  | succ k ih =>
    have hnext : ∀ n < k, (slots.get (probe (next i) n)).isFor a = true →
        ∀ m < n, slots.get (probe (next i) m) ≠ .empty := by
      intro n hn hfor m hm
      rw [probe_next] at hfor ⊢
      exact hc (n + 1) (by omega) hfor (m + 1) (by omega)
    rw [findFrom_succ, map_probe_succ]
    cases hs : slots.get i with
    | occupied e =>
      by_cases ha : e.addr = a
      · rw [List.find?_cons_of_pos (by simp [hs, ha])]
        simp [ha]
      · rw [List.find?_cons_of_neg (by simp [hs, ha]), ← ih hnext]
        simp [ha]
    | vacated =>
      rw [List.find?_cons_of_neg (by simp [hs])]
      exact ih hnext
    | empty =>
      -- the search ends here, and so all that follows must be for other addresses
      have hrest : ∀ j ∈ (List.range k).map (probe (next i)), ¬ (slots.get j).isFor a = true := by
        intro j hj hfor
        obtain ⟨n, hn, rfl⟩ := List.mem_map.mp hj
        rw [probe_next] at hfor
        refine hc (n + 1) ?_ hfor 0 (Nat.succ_pos n) (by rw [probe_zero, hs])
        exact Nat.succ_lt_succ (List.mem_range.mp hn)
      rw [List.find?_cons_of_neg (by simp [hs]), List.find?_eq_none.mpr hrest]
      rfl

/-- In a chained table the early end changes nothing. -/
theorem Chained.findFrom_eq_searchAll (hc : Chained slots) (hi : home N a = .ok i) :
    (findFrom slots a N i).map Prod.fst = searchAll slots a i := by
  apply findFrom_eq_find?
  intro n hn hfor
  obtain ⟨e, he, rfl⟩ := Slot.isFor_iff.mp hfor
  obtain ⟨n', hn', hp, hbefore⟩ := hc _ e i he hi
  rwa [probe_inj hn' hn hp] at hbefore

end Search

/-! ## Slots that stay in use -/

theorem get_apply_ne_empty (change : Change N) (hj : t.slots.get j ≠ .empty) :
    (t.apply change).slots.get j ≠ .empty := by
  cases change with
  | enter k e live liveBytes =>
    simp only [apply, get_set]
    split
    · simp
    · exact hj
  | vacate k live liveBytes =>
    simp only [apply, get_set]
    split
    · simp
    · exact hj

theorem perform_eq_apply (h : t.perform c = .ok (answer, t')) :
    t' = t ∨ ∃ change, t' = t.apply change := by
  cases c with
  | insert e =>
    rw [perform, insert] at h
    rcases hplan : t.entering e with cause | _ | change
    all_goals
      rw [hplan] at h
      cases h
    · exact .inl rfl
    · exact .inr ⟨change, rfl⟩
  | remove a =>
    rw [perform, remove] at h
    rcases hplan : t.striking a with cause | _ | ⟨e, change⟩
    all_goals
      rw [hplan] at h
      cases h
    · exact .inl rfl
    · exact .inr ⟨change, rfl⟩
  | lookup a =>
    rw [perform] at h
    rcases hfound : t.lookup a with cause | found
    all_goals
      rw [hfound] at h
      cases h
    exact .inl rfl
  | entries =>
    cases h
    exact .inl rfl

theorem perform_ne_empty (h : t.perform c = .ok (answer, t')) (hj : t.slots.get j ≠ .empty) :
    t'.slots.get j ≠ .empty := by
  rcases perform_eq_apply h with rfl | ⟨change, rfl⟩
  · exact hj
  · exact get_apply_ne_empty change hj

section Play

variable {cs later : List Command} {past past' : Past}

theorem play_ne_empty (h : play N cs = .ok (past, t)) (hj : t.slots.get j ≠ .empty)
    (hlater : play N (later ++ cs) = .ok (past', t')) : t'.slots.get j ≠ .empty := by
  induction later generalizing past' t' with
  | nil =>
    rw [List.nil_append, h] at hlater
    cases hlater
    exact hj
  | cons c later ih =>
    rcases hrun : play N (later ++ cs) with cause | ⟨past₁, t₁⟩
    · rw [List.cons_append, play_cons_of_error hrun] at hlater
      cases hlater
    · rw [List.cons_append, play_cons_of_ok hrun] at hlater
      rcases hc : t₁.perform c with cause | ⟨answer, t₂⟩
      all_goals
        rw [hc] at hlater
        cases hlater
      exact perform_ne_empty hc (ih hrun)

/-- However entries were put in and taken out, the search for an address ends at the slot at which
a search through all slots ends, and no slot in use is ever made empty. -/
theorem play_find_eq_searchAll (hN : 0 < N) (h : play N cs = .ok (past, t)) :
    (∀ a, ∃ i found, home N a = .ok i ∧ t.find a = .ok found ∧
      found.map Prod.fst = searchAll t.slots a i) ∧
    ∀ j, t.slots.get j ≠ .empty → ∀ later past' t', play N (later ++ cs) = .ok (past', t') →
      t'.slots.get j ≠ .empty := by
  obtain ⟨ht, -⟩ := sound_of_play h
  constructor
  · intro a
    obtain ⟨i, hi⟩ := home_eq_ok hN a
    refine ⟨i, findFrom t.slots a N i, hi, ?_, ht.chained.findFrom_eq_searchAll hi⟩
    rw [find, hi]
    rfl
  · intro j hj later past' t' hlater
    exact play_ne_empty h hj hlater

end Play

/-- All three addresses are at home in the last of three slots. Once the first entry is gone, the
search goes past its slot and around the end to the earlier one of two entries for one address,
and a new entry may take that slot. -/
theorem play_find_eq_searchAll_wrapped :
    let cs : List Command :=
      [.remove 0x20, .insert ⟨0x50, 2, .object⟩, .insert ⟨0x50, 1, .buffer⟩,
        .insert ⟨0x20, 8, .scratch⟩]
    ∃ past t, play 3 cs = .ok (past, t) ∧ t.slots.get 2 = .vacated ∧
      (∃ found, t.find 0x50 = .ok found ∧ found.map Prod.fst = some 0) ∧
      ∀ past' t', play 3 (.insert ⟨0x80, 4, .buffer⟩ :: cs) = .ok (past', t') →
        t'.slots.get 2 ≠ .empty := by
  intro cs
  obtain ⟨hfind, huse⟩ := play_find_eq_searchAll (by decide) (rfl : play 3 cs = .ok _)
  refine ⟨_, _, rfl, rfl, ?_, ?_⟩
  · obtain ⟨i, found, hi, hfound, heq⟩ := hfind 0x50
    cases hi
    exact ⟨found, hfound, heq.trans (by decide)⟩
  · exact huse 2 (by decide) [.insert ⟨0x80, 4, .buffer⟩]

end Ledger

end HeapGuard
