import HeapGuard.Proofs.Guarded.Recording
import HeapGuard.Proofs.Ledger.Bag

/-! # Sizes on a guarded heap

All sizes that a guarded heap computes are 64-bit numbers. A block that would be larger
than memory with its zones is refused before the source is asked, and what the ledger adds
up are bytes at different addresses. The source need only keep its blocks apart; what it
does to memory does not matter.
-/

namespace HeapGuard

open Arena (Event)
open BlockSource (Separate)
open RedZone (width totalSize)

namespace Guarded

variable {N : Nat} {S : Type} [BlockSource S]

/-- The totals of the ledger leave room for what is added to them and cover what is subtracted. -/
structure InRange (m : Machine (Guarded N S)) : Prop where
  packed : m.heap.ledger.liveBytes + 32 * m.heap.ledger.live ≤ 2 ^ 64
  /-- Whatever block the source hands out, the ledger can count it. -/
  insert_run : ∀ {n kind base source memory},
    BlockSource.alloc m.heap.source m.memory (n + 32) kind = (some base, source, memory) →
      m.heap.ledger.live + 1 < 2 ^ 64 ∧ m.heap.ledger.liveBytes + n < 2 ^ 64 ∧
        ∃ r, m.heap.ledger.insert ⟨base + 16, n, kind⟩ = .ok r
  remove_run : ∀ a, ∃ r t, m.heap.ledger.remove a = .ok (r, t) ∧
    ∀ e, r = some e → 1 ≤ m.heap.ledger.live ∧ e.size ≤ m.heap.ledger.liveBytes

/-- A request is refused without a call to the source if and only if the size of the block with its
zones is no 64-bit number; otherwise the source is asked once, for exactly that size. -/
def AsksExactly (m : Machine (Guarded N (Logged S))) (bytes : Nat) (kind : Kind) : Prop :=
  ∃ result m' calls, (Heap.alloc bytes kind).run m = .ok result m' ∧
    m'.heap.source.log = calls ++ m.heap.source.log ∧
    (result = .error (.allocation bytes) ∧ calls = [] ↔
      totalSize (max bytes 1) = .error .addOverflow) ∧
    ∀ total, totalSize (max bytes 1) = .ok total →
      (∃ block, calls = [.alloc total kind block]) ∨
        ∃ base, calls = [.release base, .alloc total kind (some base)]

section Served

variable {m m' : Machine (Guarded N S)} {live live' : List Entry} {n : Nat} {kind : Kind}
  {block : Option Nat} {calls : List Event}

theorem Served.of_huge (hb : Memory.top ≤ n + 2 * width)
    (hv : Served m live n kind block calls live' m') : block = none ∧ calls = [] := by
  cases hv with
  | huge => exact ⟨rfl, rfl⟩
  | refused hlt | full hlt | entered hlt => omega

theorem Served.calls_of_fits (hb : n + 2 * width < Memory.top)
    (hv : Served m live n kind block calls live' m') :
    (∃ answer, calls = [.alloc (n + 2 * width) kind answer]) ∨
      ∃ base, calls = [.release base, .alloc (n + 2 * width) kind (some base)] := by
  cases hv with
  | huge hge => omega
  | refused | entered => exact .inl ⟨_, rfl⟩
  | full => exact .inr ⟨_, rfl⟩

end Served

namespace Accounted

variable {s₀ : S} {log : List Event} {live : List Entry} {m : Machine (Guarded N S)}

theorem packed (hs : Separate s₀) (h : Accounted s₀ log live m) :
    m.heap.ledger.liveBytes + 2 * width * m.heap.ledger.live ≤ Memory.top := by
  rw [← h.sum_size_outstanding]
  exact Block.sum_size_le_top (hs.pairwise_outstanding h.reaches) fun b hb =>
    (hs.within h.reaches hb).2

theorem inRange (hN : 0 < N) (hs : Separate s₀) (h : Accounted s₀ log live m) : InRange m where
  packed := h.packed hs
  insert_run {n kind base source memory} hr := by
    have hpacked : m.heap.ledger.liveBytes + 32 * m.heap.ledger.live ≤ 2 ^ 64 := h.packed hs
    have hfit := h.fits hr hs
    refine ⟨by omega, hfit, ?_⟩
    rcases Nat.lt_or_ge m.heap.ledger.entries.length N with hroom | hfull
    · obtain ⟨t, ht, -⟩ := h.sound.insert_of_room hN (e := ⟨base + 16, n, kind⟩) hroom hfit
      exact ⟨_, ht⟩
    · exact ⟨_, Ledger.insert_of_full hN hfull⟩
  remove_run a := by
    by_cases ha : ∃ e ∈ m.heap.ledger.entries, e.addr = a
    · obtain ⟨e, he, -, -, t, ht, -⟩ := h.sound.remove_of_present hN ha
      refine ⟨_, t, ht, ?_⟩
      rintro _ ⟨⟩
      have hperm := List.perm_cons_erase he
      constructor
      · rw [h.sound.live_eq]
        exact List.length_pos_of_mem he
      · rw [h.sound.liveBytes_eq, (hperm.map Entry.size).sum_nat, List.map_cons, List.sum_cons]
        exact Nat.le_add_right _ _
    · have habsent : ∀ e ∈ m.heap.ledger.entries, e.addr ≠ a := fun e he hea => ha ⟨e, he, hea⟩
      exact ⟨none, _, (Ledger.remove_of_absent hN habsent).2, nofun⟩

theorem asksExactly {s₀ : S} {m : Machine (Guarded N (Logged S))} (hN : 0 < N) (hs : Separate s₀)
    (h : Accounted (⟨s₀, []⟩ : Logged S) log live m) (bytes : Nat) (kind : Kind) :
    AsksExactly m bytes kind := by
  obtain ⟨block, calls, live', m', hrun, hv, hacc⟩ :=
    h.alloc_served hN (Logged.separate hs) bytes kind
  have hlog : m'.heap.source.log = calls ++ m.heap.source.log := by
    rw [(Logged.of_reaches hacc.reaches).1, (Logged.of_reaches h.reaches).1]
  refine ⟨_, m', calls, hrun, hlog, ?_⟩
  rcases Nat.lt_or_ge (max bytes 1 + 2 * width) Memory.top with hb | hb
  · have hcalls := hv.calls_of_fits hb
    rw [RedZone.totalSize_of_fits hb]
    constructor
    · constructor
      · rintro ⟨-, rfl⟩
        simp at hcalls
      · rintro ⟨⟩
    · rintro _ ⟨⟩
      exact hcalls
  · obtain ⟨rfl, rfl⟩ := hv.of_huge hb
    rw [RedZone.totalSize_of_huge hb]
    constructor
    · simp
    · rintro _ ⟨⟩

end Accounted

/-- In a run on a heap of any size over any source that keeps its blocks apart, whatever is asked
for: requests are refused for their size alone exactly when they have to be, and the totals of the
ledger stay in range. -/
theorem play_inRange {s₀ : S} {m₀ : Machine (Guarded N S)} (hN : 0 < N) (hs : Separate s₀)
    (h₀ : m₀.heap = .new N s₀) (rs : List Request) :
    let m := (play (recorded m₀) rs).2
    play m₀ rs = ((play (recorded m₀) rs).1, unlogged m) ∧
      (∀ bytes kind, AsksExactly m bytes kind) ∧ InRange m ∧
      ∀ step ∈ (play m₀ rs).1, ∀ cause, step.2 ≠ .error (.trap cause) := by
  intro m
  obtain ⟨log, h⟩ := exists_accounted hN (Logged.separate hs) (recorded_heap h₀) rs
  refine ⟨play_eq_recorded m₀ rs, h.asksExactly hN hs, h.inRange hN (Logged.separate hs), ?_⟩
  exact play_ne_trap hN hs h₀ rs

theorem play_inRange_upper_end :
    let m := (play (recorded (onPage 1)) [.alloc 9 .buffer, .alloc 24 .object]).2
    m.heap.ledger.live = 1 ∧ m.heap.ledger.liveBytes = 24 ∧ InRange m ∧
      AsksExactly m (2 ^ 64 - 33) .buffer ∧ totalSize (2 ^ 64 - 33) = .ok (2 ^ 64 - 1) ∧
      AsksExactly m (2 ^ 64 - 32) .buffer ∧ totalSize (2 ^ 64 - 32) = .error .addOverflow := by
  intro m
  have h₀ : (onPage 1).heap = .new 1 .page := rfl
  obtain ⟨-, hasks, hrange, -⟩ := play_inRange (by decide) Arena.lawful_page.separate h₀
    [.alloc 9 .buffer, .alloc 24 .object]
  exact ⟨by decide, by decide, hrange, hasks _ _, rfl, hasks _ _, rfl⟩

end Guarded

end HeapGuard
