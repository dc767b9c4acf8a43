import HeapGuard.Proofs.Heap.Contract
import HeapGuard.Proofs.Machine

/-! # Scratch blocks

On a heap that keeps its contract, work that stays within its scratch block finds zeros
there, and the block is given back when the work is done. The blocks held before keep
their bytes.
-/

namespace HeapGuard.Heap

variable {H α : Type} [Heap H] {capacity : Nat} {body : Scratch → Action H α}
  {m m₁ m₂ m₃ : Machine H}

/-- The work returns, and it changes only the output stream and bytes of the scratch block. -/
def Contained (s : Scratch) (work : Action H α) : Prop :=
  ∀ m, ∃ a memory out, work.run m = .ok a { m with memory, out } ∧
    ∀ x, ¬ Block.Covers ⟨s.addr, s.capacity⟩ x → memory.get x = m.memory.get x

theorem withScratch_of_error {f : Failure}
    (h : (Heap.alloc capacity .scratch).run m = .ok (.error f) m₁) :
    (withScratch capacity body).run m = .ok (.error f) m₁ := by
  simp [withScratch, openScratch, h]

theorem withScratch_of_ok {a : Nat} {r : α}
    (ha : (Heap.alloc capacity .scratch).run m = .ok (.ok a) m₁)
    (hb : (body ⟨a, capacity⟩).run m₁ = .ok r m₂) (hr : (release a).run m₂ = .ok () m₃) :
    (withScratch capacity body).run m = .ok (.ok r) m₃ := by
  simp [withScratch, openScratch, closeScratch, ha, hb, hr]

variable {Holds : List Block → Machine H → Prop} {live : List Block}

theorem Contract.release_written (hH : Contract Holds) {b : Block} (hm : Holds (b :: live) m)
    {memory : Memory} (out : Stream) (hin : ∀ x, ¬ b.Covers x → memory.get x = m.memory.get x) :
    ∃ m', (Heap.release b.addr).run { m with memory, out } = .ok () m' ∧ Holds live m' ∧
      Keeps live { m with out } m' := by
  have hap := (List.pairwise_cons.mp (hH.apart hm)).1
  have hw := hH.redirect (hH.write hm List.mem_cons_self hin) out
  obtain ⟨m', hrun, hm', hk⟩ := hH.release hw
  refine ⟨m', hrun, hm', ⟨hk.eq_with, fun c hc x hx => ?_⟩⟩
  rw [hk.get_eq c hc x hx]
  exact hin x ((hap c hc).symm.not_covers hx)

/-- Either there is no block and the work is not begun, or the work is done on a block of zeros and
the block is given back. -/
theorem Contract.withScratch_cases (hH : Contract Holds) (hm : Holds live m) (capacity : Nat)
    (hbody : ∀ a, Contained ⟨a, capacity⟩ (body ⟨a, capacity⟩)) :
    (∃ m', (Heap.alloc capacity .scratch).run m = .ok (.error (.allocation capacity)) m' ∧
      (withScratch capacity body).run m = .ok (.error (.allocation capacity)) m' ∧
      Holds live m' ∧ Keeps live m m') ∨
    ∃ a m₁ r memory out m', (Heap.alloc capacity .scratch).run m = .ok (.ok a) m₁ ∧
      a + capacity ≤ Memory.top ∧ (∀ x, a ≤ x → x < a + capacity → m₁.memory.get x = 0) ∧
      m₁.out = m.out ∧ (body ⟨a, capacity⟩).run m₁ = .ok r { m₁ with memory, out } ∧
      (withScratch capacity body).run m = .ok (.ok r) m' ∧ Holds live m' ∧
      Keeps live { m with out } m' := by
  rcases hH.alloc_cases hm capacity .scratch with
    ⟨m', hrun, hm', hk⟩ | ⟨a, m₁, hrun, hm₁, hk, hzero⟩
  · left
    exact ⟨m', hrun, withScratch_of_error hrun, hm', hk⟩
  · right
    obtain ⟨r, memory, out, hwork, hin⟩ := hbody a m₁
    -- the block has a byte even if the capacity is zero
    have hin' : ∀ x, ¬ Block.Covers ⟨a, max capacity 1⟩ x → memory.get x = m₁.memory.get x := by
      intro x hx
      refine hin x fun hc => hx ?_
      simp only [Block.Covers] at hc ⊢
      omega
    obtain ⟨m', hrel, hm', hk'⟩ := hH.release_written hm₁ out hin'
    have htop := hH.within hm₁ _ List.mem_cons_self
    dsimp only at htop
    refine ⟨a, m₁, r, memory, out, m', hrun, by omega, ?_, hk.out_eq, hwork,
      withScratch_of_ok hrun hwork hrel, hm', ?_⟩
    · intro x hl hu
      exact hzero x ⟨hl, by dsimp only; omega⟩
    · refine ⟨?_, fun b hb x hx => (hk'.get_eq b hb x hx).trans (hk.get_eq b hb x hx)⟩
      rw [hk'.eq_with, hk.eq_with]

end HeapGuard.Heap
