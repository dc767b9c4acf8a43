import HeapGuard.Proofs.Guarded.Runs

/-! # What a guarded heap answers after a run

The answers of a guarded heap follow from the history of its run and from the bytes of the
zones. While the client keeps to its blocks, a release fails only at an address that is not
live. Whatever the client writes, a refused release names the damage exactly and changes
nothing.
-/

namespace HeapGuard.Guarded

open BlockSource (Lawful)
open RedZone (width InZone)

variable {N : Nat} {S : Type} [BlockSource S]

/-- The heap answers as the history says. -/
structure AnswersBy (past : History) (m : Machine (Guarded N S)) : Prop where
  isLive_run : ∀ a, (isLive a).run m = .ok (decide (a ∈ past.live.map Entry.addr)) m
  live_eq : m.heap.ledger.live = past.live.length
  liveBytes_eq : m.heap.ledger.liveBytes = (past.live.map Entry.size).sum
  /-- The extents lie in memory. -/
  bounds : ∀ e ∈ past.live, width < e.addr ∧ e.addr + e.size + width ≤ Memory.top
  apart : past.live.Pairwise fun d e => d.extent.Apart e.extent
  /-- The ledger will not be asked to enter a live address. -/
  fresh : ∀ {bytes kind base source memory},
    BlockSource.alloc m.heap.source m.memory (bytes + 2 * width) kind =
      (some base, source, memory) → base + width ∉ past.live.map Entry.addr
  tryRelease_run : ∀ a, ∃ m', (tryRelease a).run m =
    .ok (if a ∈ past.live.map Entry.addr then .ok () else .error (.unknown a)) m'

variable {s₀ : S} {log : List Arena.Event} {live : List Entry} {m : Machine (Guarded N S)}

theorem Accounted.fresh (hs : Lawful s₀) (h : Accounted s₀ log live m) {n base : Nat} {kind : Kind}
    {source : S} {memory : Memory}
    (hr : BlockSource.alloc m.heap.source m.memory (n + 2 * width) kind =
      (some base, source, memory)) : base + width ∉ live.map Entry.addr := by
  intro ha
  obtain ⟨e, he, hea⟩ := List.mem_map.mp ha
  obtain ⟨-, -, -, hapart⟩ := hs.alloc_some h.reaches (RedZone.total_pos n) hr
  have hap := hapart _ (h.extent_mem_outstanding he)
  simp only [Block.Apart, Entry.extent, width] at hap hea
  omega

theorem Accounted.answersBy {past : History} (hN : 0 < N) (hs : Lawful s₀)
    (h : Accounted s₀ log past.live m) (hz : Intact past.live m.memory) : AnswersBy past m where
  isLive_run := h.isLive_run hN
  live_eq := h.live_eq
  liveBytes_eq := h.liveBytes_eq
  bounds _ := h.bounds hs
  apart := h.pairwise_apart hs
  fresh := h.fresh hs
  tryRelease_run a := by
    split
    · next ha =>
      obtain ⟨e, he, rfl⟩ := List.mem_map.mp ha
      obtain ⟨m', _, hrun, -⟩ := h.tryRelease_of_mem_intact hN hs he (hz e he)
      exact ⟨m', hrun⟩
    · next ha => exact ⟨m, h.tryRelease_of_not_mem hN ha⟩

def Damaged (m : Memory) (lo hi : Nat) : Prop := ∃ x, lo ≤ x ∧ x < hi ∧ m.get x ≠ 0xAB

/-- Memory after a client has written canaries over the zones of a block. -/
def restore (m : Memory) (e : Entry) : Memory :=
  (m.write (e.addr - 16) (List.replicate 16 0xAB)).write (e.addr + e.size) (List.replicate 16 0xAB)

/-- A release is refused exactly at addresses that are not live and for damaged zones; a refusal
names the damage, and leaves the machine as it was. -/
structure RefusesExactly (past : History) (m : Machine (Guarded N S)) : Prop where
  unknown_iff : ∀ a,
    (tryRelease a).run m = .ok (.error (.unknown a)) m ↔ a ∉ past.live.map Entry.addr
  of_live : ∀ e ∈ past.live, ∃ d : RedZone.Damage,
    (d.before = true ↔ Damaged m.memory (e.addr - 16) e.addr) ∧
    (d.after = true ↔ Damaged m.memory (e.addr + e.size) (e.addr + e.size + 16)) ∧
    (d.before = true ∨ d.after = true →
      (tryRelease e.addr).run m = .ok (.error (.damaged e.addr e.size d)) m) ∧
    (¬ (d.before = true ∨ d.after = true) → ∃ m', (tryRelease e.addr).run m = .ok (.ok ()) m')
  restored : ∀ e ∈ past.live, ∃ m',
    (tryRelease e.addr).run { m with memory := restore m.memory e } = .ok (.ok ()) m'

theorem not_intact_iff_damaged {memory : Memory} {lo hi : Nat} (hw : lo + width = hi) :
    (!RedZone.intact memory lo) = true ↔ Damaged memory lo hi := by
  rw [Bool.not_eq_true', RedZone.intact_eq_false_iff, hw]
  rfl

theorem get_write_replicate (memory : Memory) {a n : Nat} (b : UInt8) (x : Nat)
    (h : a + n ≤ Memory.top) : (memory.write a (List.replicate n b)).get x =
      if a ≤ x ∧ x < a + n then b else memory.get x := by
  rw [Memory.get_write]
  by_cases hx : a ≤ x ∧ x < a + n
  · rw [if_pos (by omega), if_pos hx, List.getElem?_replicate, if_pos (by omega), Option.getD_some]
  · rw [if_neg hx, ite_eq_right_iff]
    intro hlt
    rw [List.getElem?_replicate, if_neg (by omega), Option.getD_none]

theorem get_restore {memory : Memory} {e : Entry} {x : Nat} (hb : width < e.addr)
    (ht : e.addr + e.size + width ≤ Memory.top) (hx : InZone (e.addr - width) e.size x) :
    (restore memory e).get x = RedZone.canary := by
  simp only [InZone, width] at hx hb ht
  rw [restore, get_write_replicate _ _ _ (by omega), get_write_replicate _ _ _ (by omega)]
  split
  · rfl
  · rw [if_pos (by omega)]
    rfl

theorem Accounted.refusesExactly {past : History} (hN : 0 < N) (hs : Lawful s₀)
    (h : Accounted s₀ log past.live m) : RefusesExactly past m where
  unknown_iff a := by
    constructor
    · intro hrun ha
      obtain ⟨e, he, rfl⟩ := List.mem_map.mp ha
      rcases hd : RedZone.check m.memory (e.addr - width) e.size with _ | d
      · obtain ⟨m', _, hok, -⟩ :=
          h.tryRelease_of_mem_intact hN hs he (RedZone.check_eq_none_iff.mp hd)
        cases hok.symm.trans hrun
      · cases (h.tryRelease_of_mem_damaged hN hs he hd).symm.trans hrun
    · exact h.tryRelease_of_not_mem hN
  of_live e he := by
    obtain ⟨hb, -⟩ := h.bounds hs he
    have hbefore : e.addr - width + width = e.addr := by omega
    refine ⟨⟨!RedZone.intact m.memory (e.addr - width),
      !RedZone.intact m.memory (e.addr + e.size)⟩, not_intact_iff_damaged hbefore,
      not_intact_iff_damaged rfl, ?_, ?_⟩
    · intro hd
      refine h.tryRelease_of_mem_damaged hN hs he ?_
      rw [RedZone.check_of_damage, hbefore]
      simpa [hbefore, Classical.or_iff_not_imp_left] using hd
    · intro hd
      have hz : RedZone.check m.memory (e.addr - width) e.size = none := by
        simpa [RedZone.check, hbefore] using hd
      obtain ⟨m', _, hrun, -⟩ :=
        h.tryRelease_of_mem_intact hN hs he (RedZone.check_eq_none_iff.mp hz)
      exact ⟨m', hrun⟩
  restored e he := by
    obtain ⟨hb, ht⟩ := h.bounds hs he
    have hr : Accounted s₀ log past.live { m with memory := restore m.memory e } :=
      h.of_heap_eq rfl
    obtain ⟨m', _, hrun, -⟩ :=
      hr.tryRelease_of_mem_intact hN hs he fun x hx => get_restore hb ht hx
    exact ⟨m', hrun⟩

/-- A client that writes to live blocks only sees a heap that answers as the history of the run says,
and none of its requests halts. -/
theorem play_answersBy_history {m₀ : Machine (Guarded N S)} (hN : 0 < N) (hs : Lawful s₀)
    (h₀ : m₀.heap = .new N s₀) (rs : List Request) (hp : (play m₀ rs).1.Proper) :
    AnswersBy (play m₀ rs).1 (play m₀ rs).2 ∧
      ∀ step ∈ (play m₀ rs).1, ∃ reply, step.2 = .ok reply := by
  obtain ⟨log, h⟩ := exists_accounted hN hs h₀ rs
  obtain ⟨hok, hz⟩ := play_proper hN hs h₀ hp
  exact ⟨h.answersBy hN hs hz, hok⟩

/-- The third block finds the ledger full, and the fourth takes the address of the first. -/
def reuse : List Request :=
  [.write (Arena.base + 17) [1, 2, 3], .alloc 4 .buffer, .release (Arena.base + 16),
    .tryRelease (Arena.base + 17), .alloc 7 .object, .alloc 0 .scratch, .alloc 3 .buffer]

theorem play_answersBy_history_reuse : (play (onPage 2) reuse).1.Proper ∧
    (play (onPage 2) reuse).1.live =
      [⟨Arena.base + 16, 4, .buffer⟩, ⟨Arena.base + 64, 1, .scratch⟩] ∧
    AnswersBy (play (onPage 2) reuse).1 (play (onPage 2) reuse).2 := by
  have hp : (play (onPage 2) reuse).1.Proper := by decide
  exact ⟨hp, by decide,
    (play_answersBy_history (by decide) Arena.lawful_page rfl reuse hp).1⟩

/-- Whatever a client has written, releases are refused exactly where they should be. -/
theorem play_refusesExactly {m₀ : Machine (Guarded N S)} (hN : 0 < N) (hs : Lawful s₀)
    (h₀ : m₀.heap = .new N s₀) (rs : List Request) :
    RefusesExactly (play m₀ rs).1 (play m₀ rs).2 := by
  obtain ⟨log, h⟩ := exists_accounted hN hs h₀ rs
  exact h.refusesExactly hN hs

/-- A block of one byte, with one byte written behind it. -/
def byteBehind : List Request := [.write (Arena.base + 17) [0], .alloc 0 .buffer]

theorem play_refusesExactly_overrun :
    (play (onPage 2) byteBehind).1.live = [⟨Arena.base + 16, 1, .buffer⟩] ∧
      RefusesExactly (play (onPage 2) byteBehind).1 (play (onPage 2) byteBehind).2 :=
  ⟨by decide, play_refusesExactly (by decide) Arena.lawful_page rfl _⟩

end HeapGuard.Guarded
