import HeapGuard.Proofs.Guarded.Recording

/-! # The balance of a guarded heap with its source

The source of a guarded heap writes its calls down. Whatever a client asks for and
whatever it writes to memory, the outstanding blocks of the source are those below the live
addresses of the heap, so no block is lost and none is given back twice.
-/

namespace HeapGuard.Guarded

open Arena (Event)
open BlockSource (Lawful Reaches outstanding)
open RedZone (width)

variable {N : Nat} {S : Type} [BlockSource S]

/-- The source has handed out the blocks of the live addresses and has taken back each other block
once. -/
structure Balanced (m : Machine (Guarded N (Logged S))) : Prop where
  isLive_iff : ∀ a, (isLive a).run m = .ok true m ↔
    ∃ b ∈ outstanding m.heap.source.log, b.addr + 16 = a
  nodup : ((outstanding m.heap.source.log).map Block.addr).Nodup
  release_outstanding : ∀ later a earlier, m.heap.source.log = later ++ .release a :: earlier →
    a ∈ (outstanding earlier).map Block.addr
  alloc_between : ∀ later a mid earlier,
    m.heap.source.log = later ++ .release a :: (mid ++ .release a :: earlier) →
      ∃ bytes kind, .alloc bytes kind (some a) ∈ mid
  /-- A request for a block returns, and if it fails, nothing is owed that was not owed before. -/
  alloc_run : ∀ bytes kind, ∃ result m', (Heap.alloc bytes kind).run m = .ok result m' ∧
    ∀ failure, result = .error failure →
      outstanding m'.heap.source.log = outstanding m.heap.source.log ∧
        m'.heap.ledger = m.heap.ledger

variable {s₀ : S} {log : List Event} {live : List Entry} {m : Machine (Guarded N (Logged S))}

theorem Accounted.isLive_iff {S : Type} [BlockSource S] {s₀ : S} {m : Machine (Guarded N S)}
    (hN : 0 < N) (hs : Lawful s₀) (h : Accounted s₀ log live m) (a : Nat) :
    (isLive a).run m = .ok true m ↔ ∃ b ∈ outstanding log, b.addr + width = a := by
  have hlive : (isLive a).run m = .ok true m ↔ a ∈ live.map Entry.addr := by
    rw [h.isLive_run hN a]
    simp
  rw [hlive, List.mem_map]
  constructor
  · rintro ⟨e, he, rfl⟩
    have hb := (h.bounds hs he).1
    refine ⟨e.extent, h.extent_mem_outstanding he, ?_⟩
    dsimp only [Entry.extent]
    omega
  · rintro ⟨b, hb, rfl⟩
    obtain ⟨e, he, rfl⟩ := List.mem_map.mp (h.outstanding_perm.subset hb)
    have hb := (h.bounds hs he).1
    refine ⟨e, he, ?_⟩
    dsimp only [Entry.extent]
    omega

theorem Accounted.log_eq (h : Accounted (⟨s₀, []⟩ : Logged S) log live m) :
    m.heap.source.log = log :=
  (Logged.of_reaches h.reaches).1

theorem Accounted.balanced (hN : 0 < N) (hs : Lawful s₀)
    (h : Accounted (⟨s₀, []⟩ : Logged S) log live m) : Balanced m := by
  have hs' := Logged.lawful hs
  have hr := (Logged.of_reaches h.reaches).2
  obtain rfl := h.log_eq
  refine ⟨h.isLive_iff hN hs', hs.nodup_outstanding hr, ?_, ?_, ?_⟩
  · intro later a earlier hlog
    rw [hlog] at hr
    exact hr.mem_outstanding_of_release
  · intro later a mid earlier hlog
    rw [hlog] at hr
    exact hs.exists_alloc_between hr
  · intro bytes kind
    rcases h.allocZeroed_cases hN hs' (max bytes 1) kind with
      ⟨log', _, _, hrun, hacc, hout, -⟩ | ⟨a, _, _, _, _, hrun, -⟩
    · refine ⟨_, _, alloc_of_none hrun, fun failure _ => ⟨?_, rfl⟩⟩
      rw [hacc.log_eq, hout]
    · refine ⟨_, _, alloc_of_some hrun, ?_⟩
      rintro _ ⟨⟩

/-- Whatever the client does, the calls that its run makes to the source balance: no block of the
source is lost and none is given back twice. -/
theorem play_balanced {m₀ : Machine (Guarded N S)} (hN : 0 < N) (hs : Lawful s₀)
    (h₀ : m₀.heap = .new N s₀) (rs : List Request) :
    play m₀ rs = ((play (recorded m₀) rs).1, unlogged (play (recorded m₀) rs).2) ∧
      Balanced (play (recorded m₀) rs).2 := by
  obtain ⟨log, h⟩ := exists_accounted hN (Logged.lawful hs) (recorded_heap h₀) rs
  exact ⟨play_eq_recorded m₀ rs, h.balanced hN hs⟩

/-- A block is given back twice, its address is handed out again, and the ledger is full for another
block; then the zone behind the new block is overwritten, and it is not taken back. -/
def overrun : List Request :=
  [.release (Arena.base + 16), .write (Arena.base + 20) [0], .alloc 9 .object, .alloc 4 .buffer,
    .tryRelease (Arena.base + 16), .tryRelease (Arena.base + 16), .alloc 3 .buffer]

theorem play_balanced_overrun :
    outstanding (play (recorded (onPage 1)) overrun).2.heap.source.log = [⟨Arena.base, 36⟩] ∧
      Balanced (play (recorded (onPage 1)) overrun).2 :=
  ⟨by decide +kernel, (play_balanced (by decide) Arena.lawful_page rfl overrun).2⟩

end HeapGuard.Guarded
