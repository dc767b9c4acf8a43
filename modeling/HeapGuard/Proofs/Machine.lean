import HeapGuard.Machine

/-! # Runs of simple actions

What the actions do from which all others are made.
-/

namespace HeapGuard.Action

variable {H α β : Type}

@[simp] theorem run_modifyMemory (f : Memory → Memory) (m : Machine H) :
    (modifyMemory f).run m = .ok () { m with memory := f m.memory } := rfl

@[simp] theorem run_memory (m : Machine H) :
    (memory : Action H Memory).run m = .ok m.memory m := rfl

@[simp] theorem run_writeOut (b : Bytes) (m : Machine H) :
    (writeOut b).run m = .ok (m.out.write b).1 { m with out := (m.out.write b).2 } := rfl

@[simp] theorem run_tell (pieces : List Bytes) (m : Machine H) :
    (tell pieces).run m = .ok () { m with err := m.err.writeAll pieces } := by
  induction pieces generalizing m with
  | nil => rfl
  | cons b pieces ih => exact ih { m with err := (m.err.write b).2 }

@[simp] theorem run_orTrap_ok (a : α) (m : Machine H) : (orTrap (.ok a)).run m = .ok a m := rfl

@[simp] theorem run_orTrap_error (cause : Trap) (m : Machine H) :
    (orTrap (.error cause) : Action H α).run m = .error (.trap cause) m := rfl

@[simp] theorem run_map (f : α → β) (x : Action H α) (m : Machine H) :
    (f <$> x).run m =
      match x.run m with
      | .ok a m => .ok (f a) m
      | .error halt m => .error halt m := by
  rw [map_eq_pure_bind, EStateM.run_bind]
  cases x.run m <;> rfl

def returns (x : Action H α) (m : Machine H) : Bool :=
  match x.run m with
  | .ok .. => true
  | .error .. => false

theorem run_ne_error {x : Action H α} {m : Machine H} (h : x.returns m = true) (halt : Halt)
    (m' : Machine H) : x.run m ≠ .error halt m' := by
  intro hx
  rw [returns, hx] at h
  cases h

/-- The action ends with an answer and a machine that pass the test. -/
def ensures (x : Action H α) (m : Machine H) (test : α → Machine H → Bool) : Bool :=
  match x.run m with
  | .ok a m' => test a m'
  | .error .. => false

section Ensures

variable {x : Action H α} {m m' : Machine H} {test : α → Machine H → Bool} {a : α}

theorem exists_run_of_ensures (h : x.ensures m test = true) :
    ∃ a m', x.run m = .ok a m' ∧ test a m' = true := by
  unfold ensures at h
  split at h
  · next a m' hx => exact ⟨a, m', hx, h⟩
  · cases h

theorem test_of_ensures (h : x.ensures m test = true) (hx : x.run m = .ok a m') :
    test a m' = true := by
  obtain ⟨_, _, hrun, htest⟩ := exists_run_of_ensures h
  cases hrun.symm.trans hx
  exact htest

theorem exists_run_and_of_ensures [DecidableEq α] {rest : Machine H → Bool}
    (h : x.ensures m (fun b m' => b = a && rest m') = true) :
    ∃ m', x.run m = .ok a m' ∧ rest m' = true := by
  obtain ⟨b, m', hrun, htest⟩ := exists_run_of_ensures h
  obtain ⟨hb, hrest⟩ := Bool.and_eq_true_iff.mp htest
  obtain rfl := of_decide_eq_true hb
  exact ⟨m', hrun, hrest⟩

theorem exists_run_of_answer [DecidableEq α] (h : x.ensures m (fun b _ => b = a) = true) :
    ∃ m', x.run m = .ok a m' := by
  obtain ⟨b, m', hrun, htest⟩ := exists_run_of_ensures h
  obtain rfl := of_decide_eq_true htest
  exact ⟨m', hrun⟩

end Ensures

end HeapGuard.Action
