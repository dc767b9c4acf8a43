import HeapGuard.Ledger
import Mathlib.Data.Fin.Basic
import Mathlib.Data.List.Perm.Basic

/-! # Probing

The slots are probed in a ring. A table is chained if every entry can be reached from
the home of its address without passing an empty slot. In a chained table a search
finds an entry for an address whenever there is one.
-/

namespace HeapGuard.Ledger

variable {N : Nat}

/-- The slot probed `k` steps after `i`. -/
def probe (i : Fin N) (k : Nat) : Fin N := ⟨(i + k) % N, Nat.mod_lt _ i.pos⟩

@[simp] theorem probe_zero (i : Fin N) : probe i 0 = i :=
  Fin.ext (Nat.mod_eq_of_lt i.isLt)

theorem probe_next (i : Fin N) (k : Nat) : probe (next i) k = probe i (k + 1) := by
  apply Fin.ext
  simp only [probe, next, Nat.mod_add_mod]
  congr 1
  omega

theorem exists_probe_eq (i j : Fin N) : ∃ k < N, probe i k = j := by
  rcases Nat.lt_or_ge j i with h | h
  · refine ⟨j + N - i, by omega, Fin.ext ?_⟩
    have he : i + (j + N - i) = j + N := by omega
    simp only [probe, he, Nat.add_mod_right, Nat.mod_eq_of_lt j.isLt]
  · refine ⟨j - i, by omega, Fin.ext ?_⟩
    have he : (i : Nat) + (j - i) = j := by omega
    simp only [probe, he, Nat.mod_eq_of_lt j.isLt]

theorem home_eq_ok (hN : 0 < N) (a : Nat) : ∃ i, home N a = .ok i :=
  ⟨_, dif_pos hN⟩

section Search

variable {slots : Vector Slot N} {a k : Nat} {i : Fin N}

theorem freeFrom_succ : freeFrom slots (k + 1) i =
    match slots.get i with
    | .occupied _ => freeFrom slots k (next i)
    | _ => some i := rfl

theorem findFrom_succ : findFrom slots a (k + 1) i =
    match slots.get i with
    | .occupied e => if e.addr = a then some (i, e) else findFrom slots a k (next i)
    | .vacated => findFrom slots a k (next i)
    | .empty => none := rfl

theorem freeFrom_eq_some {j : Fin N} (h : freeFrom slots k i = some j) :
    ∃ n < k, probe i n = j ∧ (slots.get j).occupant = none ∧
      ∀ m < n, ∃ e, slots.get (probe i m) = .occupied e := by
  induction k generalizing i with
  | zero => cases h
  | succ k ih =>
    have here (hs : (slots.get i).occupant = none) (h : some i = some j) :
        ∃ n < k + 1, probe i n = j ∧ (slots.get j).occupant = none ∧
          ∀ m < n, ∃ e, slots.get (probe i m) = .occupied e := by
      cases h
      exact ⟨0, by omega, probe_zero _, hs, fun m hm => by omega⟩
    rw [freeFrom_succ] at h
    cases hs : slots.get i with
    | empty => exact here (by rw [hs]; rfl) (by rwa [hs] at h)
    | vacated => exact here (by rw [hs]; rfl) (by rwa [hs] at h)
    | occupied e =>
      rw [hs] at h
      obtain ⟨n, hn, hj, hfree, hbusy⟩ := ih h
      refine ⟨n + 1, by omega, by rw [← probe_next, hj], hfree, fun m hm => ?_⟩
      cases m with
      | zero => exact ⟨e, by rwa [probe_zero]⟩
      | succ m =>
        rw [← probe_next]
        exact hbusy m (by omega)

theorem freeFrom_eq_none (h : freeFrom slots k i = none) :
    ∀ n < k, ∃ e, slots.get (probe i n) = .occupied e := by
  induction k generalizing i with
  | zero => intro n hn; omega
  | succ k ih =>
    rw [freeFrom_succ] at h
    split at h
    · next e he =>
      intro n hn
      cases n with
      | zero => exact ⟨e, by rwa [probe_zero]⟩
      | succ n =>
        rw [← probe_next]
        exact ih h n (by omega)
    · cases h

theorem findFrom_eq_some {j : Fin N} {e : Entry} (h : findFrom slots a k i = some (j, e)) :
    slots.get j = .occupied e ∧ e.addr = a := by
  induction k generalizing i with
  | zero => cases h
  | succ k ih =>
    rw [findFrom_succ] at h
    split at h
    · next e' he =>
      split at h
      · next ha =>
        cases h
        exact ⟨he, ha⟩
      · exact ih h
    · exact ih h
    · cases h

/-- A search does not miss an entry that no empty slot cuts off from its start. -/
theorem findFrom_ne_none {n : Nat} {e : Entry} (hn : n < k)
    (he : slots.get (probe i n) = .occupied e) (ha : e.addr = a)
    (hc : ∀ m < n, slots.get (probe i m) ≠ .empty) : findFrom slots a k i ≠ none := by
  induction k generalizing i n with
  | zero => omega
  | succ k ih =>
    rw [findFrom_succ]
    cases n with
    | zero =>
      rw [probe_zero] at he
      simp [he, ha]
    | succ n =>
      have hi : slots.get i ≠ .empty := by simpa using hc 0 (by omega)
      have ht : findFrom slots a k (next i) ≠ none := by
        refine ih (Nat.lt_of_succ_lt_succ hn) (by rwa [probe_next]) fun m hm => ?_
        rw [probe_next]
        exact hc _ (by omega)
      cases hs : slots.get i with
      | empty => exact absurd hs hi
      | vacated => exact ht
      | occupied e' =>
        dsimp only
        split
        · exact Option.some_ne_none _
        · exact ht

end Search

/-- No empty slot lies between an entry and the home of its address. -/
def Chained (slots : Vector Slot N) : Prop :=
  ∀ (j : Fin N) (e : Entry) (i : Fin N), slots.get j = .occupied e → home N e.addr = .ok i →
    ∃ n < N, probe i n = j ∧ ∀ m < n, slots.get (probe i m) ≠ .empty

theorem get_set (slots : Vector Slot N) (s : Slot) (i j : Fin N) :
    (slots.set j s j.isLt).get i = if j = i then s else slots.get i := by
  simp only [Fin.ext_iff]
  exact Vector.getElem_set j.isLt i.isLt

theorem chained_empty (N : Nat) : Chained (empty N).slots := by
  intro j e i h _
  have hj : (empty N).slots.get j = .empty := Vector.getElem_replicate j.isLt
  rw [hj] at h
  cases h

theorem Chained.set {slots : Vector Slot N} (hc : Chained slots) (j : Fin N) {s : Slot}
    (hs : s ≠ .empty) (hnew : ∀ e i, s = .occupied e → home N e.addr = .ok i →
      ∃ n < N, probe i n = j ∧ ∀ m < n, slots.get (probe i m) ≠ .empty) :
    Chained (slots.set j s j.isLt) := by
  have keep (i : Fin N) (n : Nat) (h : ∀ m < n, slots.get (probe i m) ≠ .empty) :
      ∀ m < n, (slots.set j s).get (probe i m) ≠ .empty := by
    intro m hm
    rw [get_set]
    split
    · exact hs
    · exact h m hm
  intro j' e i he hi
  rw [get_set] at he
  split at he
  · next hj =>
    obtain ⟨n, hn, hp, h⟩ := hnew e i he hi
    exact ⟨n, hn, hp.trans hj, keep i n h⟩
  · obtain ⟨n, hn, hp, h⟩ := hc j' e i he hi
    exact ⟨n, hn, hp, keep i n h⟩

end HeapGuard.Ledger
