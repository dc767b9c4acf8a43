import HeapGuard.Proofs.Guarded.Recording

/-! # Calls to the source

Which calls an operation of the guarded heap makes to its source, as far as the code tells
without regard to the state: a request makes at most one call that hands out a block, and a
block that cannot be entered in the ledger goes straight back.
-/

namespace HeapGuard.Guarded

open Arena (Event)
open RedZone (width)

variable {N : Nat} {S α β : Type}

/-- Whenever the action returns, the calls it has made to the source, the last one first, are as
`P` says. -/
def Asks (x : Action (Guarded N (Logged S)) α) (P : α → List Event → Prop) : Prop :=
  ∀ m a m', x.run m = .ok a m' →
    ∃ calls, m'.heap.source.log = calls ++ m.heap.source.log ∧ P a calls

def Quiet (x : Action (Guarded N (Logged S)) α) : Prop := Asks x fun _ calls => calls = []

namespace Asks

variable {x : Action (Guarded N (Logged S)) α} {f : α → Action (Guarded N (Logged S)) β}
  {P : α → List Event → Prop} {Q : β → List Event → Prop}

theorem pure {a : α} (h : P a []) : Asks (N := N) (S := S) (pure a) P := by
  rintro m _ _ ⟨⟩
  exact ⟨[], rfl, h⟩

theorem bind (hx : Asks x P)
    (hf : ∀ a calls, P a calls → Asks (f a) fun b later => Q b (later ++ calls)) :
    Asks (x >>= f) Q := by
  intro m b m₂ hrun
  rw [EStateM.run_bind] at hrun
  rcases hm : x.run m with ⟨a, m₁⟩ | _
  · rw [hm] at hrun
    obtain ⟨calls, hlog, hp⟩ := hx m a m₁ hm
    obtain ⟨later, hlog', hq⟩ := hf a calls hp m₁ b m₂ hrun
    exact ⟨later ++ calls, by rw [hlog', hlog, List.append_assoc], hq⟩
  · rw [hm] at hrun
    cases hrun

theorem bind_quiet (hx : Quiet x) (hf : ∀ a, Asks (f a) Q) : Asks (x >>= f) Q := by
  apply hx.bind
  rintro a _ rfl
  simpa using hf a

theorem get_bind {f : Machine (Guarded N (Logged S)) → Action (Guarded N (Logged S)) β}
    (hf : ∀ m, Asks (f m) Q) : Asks (get >>= f) Q :=
  fun m => hf m m

theorem die (f : Fatal) : Asks (N := N) (S := S) (Action.die f : Action _ α) P := by
  intro m a m' hrun
  rw [Action.die, EStateM.run_bind, Action.run_tell] at hrun
  cases hrun

theorem orTrap (r : Except Trap α) : Quiet (N := N) (S := S) (Action.orTrap r) := by
  cases r with
  | ok a => exact pure rfl
  | error cause => rintro m a m' ⟨⟩

theorem modifyMemory (f : Memory → Memory) :
    Quiet (N := N) (S := S) (Action.modifyMemory f) := by
  rintro m _ _ ⟨⟩
  exact ⟨[], rfl, rfl⟩

theorem amend (c : Ledger.Change N) : Quiet (S := S) (amend c) := by
  rintro m _ _ ⟨⟩
  exact ⟨[], rfl, rfl⟩

theorem strike (a : Nat) : Quiet (N := N) (S := S) (strike a) := by
  refine get_bind fun m => bind_quiet (orTrap _) fun r => ?_
  cases r with
  | none => exact pure rfl
  | some e =>
    refine get_bind fun m => ?_
    cases RedZone.check m.memory (a - width) e.size with
    | some d => exact pure rfl
    | none =>
      refine get_bind fun m => bind_quiet (orTrap _) fun r => ?_
      cases r with
      | none => exact pure rfl
      | some c => exact bind_quiet (amend c.2) fun _ => pure rfl

theorem enroll (e : Entry) : Quiet (N := N) (S := S) (enroll e) := by
  refine get_bind fun m => bind_quiet (orTrap _) fun r => ?_
  cases r with
  | none => exact pure rfl
  | some c => exact bind_quiet (amend c) fun _ => pure rfl

end Asks

/-- No call, a call that is refused, or a block that goes straight back. -/
inductive Settled : List Event → Prop
  | none : Settled []
  | refused (bytes : Nat) (kind : Kind) : Settled [.alloc bytes kind none]
  | returned (bytes : Nat) (kind : Kind) (base : Nat) :
      Settled [.release base, .alloc bytes kind (some base)]

namespace Asks

variable [BlockSource S]

theorem reserve (bytes : Nat) (kind : Kind) : Asks (N := N) (S := S) (reserve bytes kind)
    fun block calls => calls = [.alloc bytes kind block] := by
  rintro m _ _ ⟨⟩
  exact ⟨_, rfl, rfl⟩

theorem giveBack (base : Nat) : Asks (N := N) (S := S) (giveBack base)
    fun _ calls => calls = [.release base] := by
  rintro m _ _ ⟨⟩
  exact ⟨_, rfl, rfl⟩

theorem allocZeroed (bytes : Nat) (kind : Kind) :
    Asks (N := N) (S := S) (allocZeroed bytes kind) fun block calls => match block with
      | some a => ∃ n base, a = base + width ∧ calls = [.alloc n kind (some base)]
      | none => Settled calls := by
  unfold Guarded.allocZeroed
  dsimp only
  split
  · exact pure .none
  · apply (reserve _ kind).bind
    rintro block _ rfl
    cases block with
    | none => exact pure (.refused _ _)
    | some base =>
      refine bind_quiet (modifyMemory _) fun _ => bind_quiet (enroll _) fun done => ?_
      cases done with
      | true => exact pure ⟨_, base, rfl, rfl⟩
      | false =>
        apply (giveBack base).bind
        rintro _ _ rfl
        exact pure (.returned _ _ base)

theorem tryRelease (a : Nat) : Asks (N := N) (S := S) (tryRelease a) fun result calls =>
    match result with
      | .ok () => calls = [.release (a - width)]
      | .error _ => calls = [] := by
  refine bind_quiet (strike a) fun r => ?_
  cases r with
  | error fault => exact pure rfl
  | ok size =>
    refine bind_quiet (modifyMemory _) fun _ => ?_
    apply (giveBack _).bind
    rintro _ _ rfl
    exact pure rfl

theorem release {a : Nat} (ha : a ≠ 0) : Asks (N := N) (S := S) (release a)
    fun _ calls => calls = [.release (a - width)] := by
  unfold Guarded.release
  rw [if_neg ha]
  apply (tryRelease a).bind
  intro r calls hc
  cases r with
  | error fault => exact die _
  | ok => exact pure hc

theorem alloc (bytes : Nat) (kind : Kind) :
    Asks (N := N) (S := S) (Heap.alloc bytes kind) fun result calls => match result with
      | .ok a => ∃ n base, a = base + width ∧ calls = [.alloc n kind (some base)]
      | .error _ => Settled calls := by
  apply (allocZeroed _ kind).bind
  intro block calls hc
  cases block with
  | none => exact pure hc
  | some a => exact pure hc

/-- The block that quiet work is done on is handed out once and goes back once. -/
theorem withScratch {capacity : Nat} {body : Heap.Scratch → Action (Guarded N (Logged S)) α}
    (hb : ∀ s, Quiet (body s)) :
    Asks (Heap.withScratch capacity body) fun _ calls => Settled calls := by
  have hopen : Asks (N := N) (S := S) (Heap.openScratch capacity) fun result calls =>
      match result with
      | .ok s => ∃ n base, s.addr = base + width ∧ calls = [.alloc n .scratch (some base)]
      | .error _ => Settled calls := by
    apply (alloc capacity .scratch).bind
    intro result calls hc
    cases result with
    | error f => exact pure hc
    | ok a => exact pure hc
  apply hopen.bind
  intro result calls hc
  cases result with
  | error f => exact pure hc
  | ok s =>
    obtain ⟨n, base, ha, rfl⟩ := hc
    refine bind_quiet (hb s) fun r => ?_
    have hne : s.addr ≠ 0 := by
      rw [ha, width]
      omega
    apply (release hne).bind
    rintro _ _ rfl
    rw [ha, Nat.add_sub_cancel]
    exact pure (.returned n .scratch base)

end Asks

end HeapGuard.Guarded
