import HeapGuard.Proofs.Guarded.Contract
import HeapGuard.Proofs.Heap.Client

/-! # The guard is not seen by correct clients

A client that keeps to its blocks cannot tell a guarded heap from a plain one, as long as
neither runs out of blocks. Where the blocks lie, what surrounds them and what is written to
them once they are given back does not show in any answer.
-/

namespace HeapGuard.Client

open BlockSource (Lawful)

section NoSlots

variable {S : Type} [BlockSource S] {m m' : Machine (Guarded 0 S)} {bytes a : Nat} {kind : Kind}

theorem alloc_ne_ok : (Heap.alloc bytes kind).run m ≠ .ok (.ok a) m' := by
  intro h
  rcases Nat.lt_or_ge (max bytes 1 + 2 * RedZone.width) Memory.top with hb | hb
  · rcases hr : BlockSource.alloc m.heap.source m.memory (max bytes 1 + 2 * RedZone.width) kind with
      ⟨_ | base, source, memory⟩
    · have hnone := Guarded.allocZeroed_of_refusal hb hr
      cases (Guarded.alloc_of_none hnone).symm.trans h
    · have htrap : (Guarded.allocZeroed (max bytes 1) kind).run m =
          .error (.trap .remainderByZero) _ := Guarded.allocZeroed_of_trap hb hr rfl
      cases (Guarded.alloc_of_halt htrap).symm.trans h
  · have hnone : (Guarded.allocZeroed (max bytes 1) kind).run m = .ok none m :=
      Guarded.allocZeroed_of_huge hb
    cases (Guarded.alloc_of_none hnone).symm.trans h

theorem eq_nil_of_supplied {steps : List Step} (hv : Valid [] steps) (hs : Supplied [] m steps) :
    steps = [] := by
  cases steps with
  | nil => rfl
  | cons s steps =>
    have absent {block count : Nat} : ¬ Store.HasBytes [] block count := by
      rintro ⟨bytes, hb, -⟩
      simp at hb
    cases s with
    | alloc bytes kind =>
      obtain ⟨a, m', hrun⟩ := hs.1
      exact absurd hrun alloc_ne_ok
    | read block offset count => exact absurd hv.1 absent
    | write block offset bytes => exact absurd hv.1 absent
    | free block => exact absurd hv.1 absent
    | print text scratchSize stream =>
      obtain ⟨a, m', hrun⟩ := hs.1
      exact absurd hrun alloc_ne_ok

end NoSlots

variable {N : Nat} {S₁ S₂ : Type} [BlockSource S₁] [BlockSource S₂] {s₁ : S₁} {s₂ : S₂}

/-- On a plain heap and on a guarded one a correct client gets the same answers, and none of its
steps halts. -/
theorem run_plain_eq_run_guarded (h₁ : Lawful s₁) (h₂ : Lawful s₂) {m₁ : Machine (Plain S₁)}
    {m₂ : Machine (Guarded N S₂)} (hm₁ : m₁.heap = ⟨s₁⟩) (hm₂ : m₂.heap = .new N s₂)
    (steps : List Step) (hv : Valid [] steps) (hs₁ : Supplied [] m₁ steps)
    (hs₂ : Supplied [] m₂ steps) :
    ∃ m₁' m₂', (run [] steps).run m₁ = .ok (answers [] steps) m₁' ∧
      (run [] steps).run m₂ = .ok (answers [] steps) m₂' := by
  have hplain : Plain.Holds s₁ [] m₁ := ⟨[], by rw [hm₁]; exact .start, .nil⟩
  obtain ⟨m₁', hrun₁⟩ := run_eq_answers (Plain.contract h₁) hplain hv hs₁
  rcases Nat.eq_zero_or_pos N with rfl | hN
  · obtain rfl := eq_nil_of_supplied hv hs₂
    exact ⟨m₁', m₂, hrun₁, rfl⟩
  · have hguarded := (Guarded.Accounted.new hm₂).holds
    obtain ⟨m₂', hrun₂⟩ := run_eq_answers (Guarded.contract hN h₂ [] m₂.memory) hguarded hv hs₂
    exact ⟨m₁', m₂', hrun₁, hrun₂⟩

theorem Supplied.cons {H : Type} [Heap H] {m m' : Machine H} {addrs addrs' : List Nat} {s : Step}
    {steps : List Step} {answer : Answer} (hs : s.Supplied m)
    (hrun : (s.run addrs).run m = .ok (answer, addrs') m') (hrest : Supplied addrs' m' steps) :
    Supplied addrs m (s :: steps) := by
  refine ⟨hs, fun _ _ _ h => ?_⟩
  cases hrun.symm.trans h
  exact hrest

/-- A block is filled and given back, and its place taken by another one; a line is printed that
does not fit. -/
def lifeOfABlock : List Step :=
  [.alloc 3 .buffer, .write 0 1 [7, 8], .print [104, 105] 3 .accepting, .read 0 0 3, .free 0,
    .alloc 0 .object, .read 1 0 1]

theorem run_plain_eq_run_guarded_reuse :
    Valid [] lifeOfABlock ∧ Supplied [] Plain.onPage lifeOfABlock ∧
      Supplied [] (Guarded.onPage 2) lifeOfABlock ∧
      ∃ m₁ m₂, (run [] lifeOfABlock).run Plain.onPage = .ok (answers [] lifeOfABlock) m₁ ∧
        (run [] lifeOfABlock).run (Guarded.onPage 2) = .ok (answers [] lifeOfABlock) m₂ := by
  have hv : Valid [] lifeOfABlock :=
    ⟨trivial, ⟨_, rfl, by decide⟩, trivial, ⟨_, rfl, by decide⟩, ⟨_, rfl, by decide⟩, trivial,
      ⟨_, rfl, by decide⟩, trivial⟩
  have hs₁ : Supplied [] Plain.onPage lifeOfABlock := by
    refine .cons ⟨_, _, rfl⟩ rfl (.cons trivial rfl ?_)
    refine .cons ⟨_, _, rfl⟩ rfl (.cons trivial rfl (.cons trivial rfl ?_))
    exact .cons ⟨_, _, rfl⟩ rfl (.cons trivial rfl trivial)
  have hs₂ : Supplied [] (Guarded.onPage 2) lifeOfABlock := by
    refine .cons ⟨_, _, rfl⟩ rfl (.cons trivial rfl ?_)
    refine .cons ⟨_, _, rfl⟩ rfl (.cons trivial rfl (.cons trivial rfl ?_))
    exact .cons ⟨_, _, rfl⟩ rfl (.cons trivial rfl trivial)
  exact ⟨hv, hs₁, hs₂, run_plain_eq_run_guarded Arena.lawful_page Arena.lawful_page
    rfl rfl lifeOfABlock hv hs₁ hs₂⟩

end HeapGuard.Client
