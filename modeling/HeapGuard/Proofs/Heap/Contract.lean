import HeapGuard.Heap
import HeapGuard.Proofs.Source.Arena

/-! # The contract of heaps

What a heap owes its clients, said in terms of the blocks they hold. A request yields a
zeroed block apart from these or fails, a block that is held can be given back, and the
heap touches neither the bytes of the blocks held nor the streams. In return a client
writes to its own blocks only. A heap that passes requests on to a lawful source keeps
this contract.
-/

namespace HeapGuard

open Arena (Event)
open BlockSource (Lawful Reaches outstanding)
open scoped List

namespace Heap

variable {H : Type} {live : List Block} {m m' : Machine H}

/-- Only memory and heap have changed, and memory only outside these blocks. -/
structure Keeps (live : List Block) (m m' : Machine H) : Prop where
  eq_with : m' = { m with memory := m'.memory, heap := m'.heap }
  get_eq : ∀ b ∈ live, ∀ x, b.Covers x → m'.memory.get x = m.memory.get x

theorem Keeps.out_eq (h : Keeps live m m') : m'.out = m.out := by rw [h.eq_with]

theorem Keeps.err_eq (h : Keeps live m m') : m'.err = m.err := by rw [h.eq_with]

theorem Keeps.settings_eq (h : Keeps live m m') : m'.settings = m.settings := by rw [h.eq_with]

variable [Heap H]

/-- The heap keeps its contract with clients that hold blocks in the sense of `Holds`. -/
structure Contract (Holds : List Block → Machine H → Prop) : Prop where
  perm : ∀ {live live' m}, Holds live m → live ~ live' → Holds live' m
  within : ∀ {live m}, Holds live m → ∀ b ∈ live, b.addr + b.size ≤ Memory.top
  apart : ∀ {live m}, Holds live m → live.Pairwise Block.Apart
  alloc : ∀ {live m}, Holds live m → ∀ bytes kind, 0 < bytes →
    (∃ m', (allocZeroed bytes kind).run m = .ok none m' ∧ Holds live m' ∧ Keeps live m m') ∨
    ∃ a m', (allocZeroed bytes kind).run m = .ok (some a) m' ∧ Holds (⟨a, bytes⟩ :: live) m' ∧
      Keeps live m m' ∧ ∀ x, Block.Covers ⟨a, bytes⟩ x → m'.memory.get x = 0
  release : ∀ {b live m}, Holds (b :: live) m →
    ∃ m', (release b.addr).run m = .ok () m' ∧ Holds live m' ∧ Keeps live m m'
  /-- Clients may write to their blocks. -/
  write : ∀ {live m b memory}, Holds live m → b ∈ live →
    (∀ x, ¬ b.Covers x → memory.get x = m.memory.get x) → Holds live { m with memory }
  /-- The heap does not depend on the output stream. -/
  redirect : ∀ {live m}, Holds live m → ∀ out, Holds live { m with out }

variable {Holds : List Block → Machine H → Prop}

theorem Contract.alloc_cases (hH : Contract Holds) (hm : Holds live m) (bytes : Nat) (kind : Kind) :
    (∃ m', (Heap.alloc bytes kind).run m = .ok (.error (.allocation bytes)) m' ∧ Holds live m' ∧
      Keeps live m m') ∨
    ∃ a m', (Heap.alloc bytes kind).run m = .ok (.ok a) m' ∧
      Holds (⟨a, max bytes 1⟩ :: live) m' ∧ Keeps live m m' ∧
        ∀ x, Block.Covers ⟨a, max bytes 1⟩ x → m'.memory.get x = 0 := by
  rcases hH.alloc hm (max bytes 1) kind (by omega) with ⟨m', hrun, hrest⟩ | ⟨a, m', hrun, hrest⟩
  · left
    refine ⟨m', ?_, hrest⟩
    simp [Heap.alloc, hrun]
  · right
    refine ⟨a, m', ?_, hrest⟩
    simp [Heap.alloc, hrun]

theorem Contract.alloc_of_ok (hH : Contract Holds) (hm : Holds live m) {bytes a : Nat} {kind : Kind}
    (h : (Heap.alloc bytes kind).run m = .ok (.ok a) m') :
    Holds (⟨a, max bytes 1⟩ :: live) m' ∧ Keeps live m m' ∧
      ∀ x, Block.Covers ⟨a, max bytes 1⟩ x → m'.memory.get x = 0 := by
  rcases hH.alloc_cases hm bytes kind with ⟨m₁, hrun, -⟩ | ⟨a₁, m₁, hrun, hrest⟩
  · cases hrun.symm.trans h
  · cases hrun.symm.trans h
    exact hrest

theorem Contract.alloc_of_error (hH : Contract Holds) (hm : Holds live m) {bytes : Nat}
    {kind : Kind} {f : Failure} (h : (Heap.alloc bytes kind).run m = .ok (.error f) m') :
    Holds live m' ∧ Keeps live m m' := by
  rcases hH.alloc_cases hm bytes kind with ⟨m₁, hrun, hrest⟩ | ⟨a₁, m₁, hrun, -⟩
  · cases hrun.symm.trans h
    exact hrest
  · cases hrun.symm.trans h

end Heap

namespace Plain

variable {S : Type} [BlockSource S] {s₀ : S}

/-- The blocks held are those that the source has handed out. -/
def Holds (s₀ : S) (live : List Block) (m : Machine (Plain S)) : Prop :=
  ∃ log, Reaches s₀ log m.heap.source ∧ outstanding log ~ live

theorem addr_pos (hs : Lawful s₀) {live : List Block} {m : Machine (Plain S)}
    (hm : Holds s₀ live m) : ∀ b ∈ live, 0 < b.addr := by
  obtain ⟨log, hr, hp⟩ := hm
  intro b hb
  exact (hs.of_mem_outstanding hr (hp.symm.subset hb)).1

theorem contract (hs : Lawful s₀) : Heap.Contract (Holds s₀) where
  perm := by
    rintro live live' m ⟨log, hr, hp⟩ hl
    exact ⟨log, hr, hp.trans hl⟩
  within := by
    rintro live m ⟨log, hr, hp⟩ b hb
    exact (hs.of_mem_outstanding hr (hp.symm.subset hb)).2.2
  apart := by
    rintro live m ⟨log, hr, hp⟩
    exact (hp.pairwise_iff Block.Apart.symm).mp (hs.pairwise_outstanding hr)
  alloc := by
    rintro live m ⟨log, hr, hp⟩ bytes kind hb
    have hreach := hr.alloc hb m.memory kind
    have hframe : ∀ b ∈ live, ∀ x, b.Covers x →
        (BlockSource.alloc m.heap.source m.memory bytes kind).2.2.get x = m.memory.get x :=
      fun b hb' => hs.alloc_frame hr hb m.memory kind b (hp.symm.subset hb')
    rcases ha : BlockSource.alloc m.heap.source m.memory bytes kind with ⟨_ | a, source, memory⟩
    · rw [ha] at hreach hframe
      left
      refine ⟨{ m with heap := ⟨source⟩, memory }, ?_, ⟨_, hreach, hp⟩, rfl, hframe⟩
      simp [Heap.allocZeroed, ha]
    · rw [ha] at hreach hframe
      obtain ⟨-, -, hzero, -⟩ := hs.alloc_some hr hb ha
      right
      refine ⟨a, { m with heap := ⟨source⟩, memory }, ?_, ⟨_, hreach, hp.cons _⟩, ⟨rfl, hframe⟩,
        fun x hx => hzero x hx.1 hx.2⟩
      simp [Heap.allocZeroed, ha]
  release := by
    rintro b live m ⟨log, hr, hp⟩
    have hb := hp.symm.subset List.mem_cons_self
    -- no other outstanding block starts where `b` does
    have hone : (outstanding log).Pairwise fun c d =>
        c.addr == b.addr → d.addr == b.addr → False := by
      have hn := List.pairwise_map.mp (hs.nodup_outstanding hr)
      refine hn.imp fun {c d} hne hc hd => hne ?_
      rw [beq_iff_eq.mp hc, beq_iff_eq.mp hd]
    have he := hp.eraseP _ hone
    rw [List.eraseP_cons_of_pos (by simp)] at he
    refine ⟨_, rfl, ⟨_, hr.release hb m.memory, he⟩, rfl, ?_⟩
    intro c hc x hx
    exact hs.release_frame hr hb m.memory c (he.symm.subset hc) x hx
  write := by
    rintro live m b memory ⟨log, hr, hp⟩ - -
    exact ⟨log, hr, hp⟩
  redirect := by
    rintro live m ⟨log, hr, hp⟩ out
    exact ⟨log, hr, hp⟩

def onPage : Machine (Plain Arena) := .start ⟨.page⟩

theorem holds_onPage : Holds .page [] onPage := ⟨[], .start, .nil⟩

end Plain

end HeapGuard
