import HeapGuard.Proofs.Guarded.Runs

/-! # Recording changes nothing

A guarded heap over a source that writes its calls down does the same as the heap over the
bare source: every request has the same outcome and the machines differ in the record only.
-/

namespace HeapGuard.Guarded

variable {N : Nat} {S α β : Type}

/-- The machine without the record of the calls to its source. -/
def unlogged (m : Machine (Guarded N (Logged S))) : Machine (Guarded N S) :=
  { m with heap := ⟨m.heap.source.source, m.heap.ledger⟩ }

/-- The machine with an empty record of the calls to its source. -/
def recorded (m : Machine (Guarded N S)) : Machine (Guarded N (Logged S)) :=
  { m with heap := ⟨⟨m.heap.source, []⟩, m.heap.ledger⟩ }

theorem recorded_heap {m : Machine (Guarded N S)} {s₀ : S} (h : m.heap = .new N s₀) :
    (recorded m).heap = .new N ⟨s₀, []⟩ := by
  rw [recorded, h]
  rfl

/-- The two actions answer and halt alike, and leave machines that differ in the record only. -/
def Matches (x : Action (Guarded N (Logged S)) α) (y : Action (Guarded N S) α) : Prop :=
  ∀ m, y.run (unlogged m) =
    match x.run m with
    | .ok a m => .ok a (unlogged m)
    | .error halt m => .error halt (unlogged m)

theorem unlogged_memory (m : Machine (Guarded N (Logged S))) :
    (unlogged m).memory = m.memory := rfl

namespace Matches

theorem pure (a : α) : Matches (N := N) (S := S) (pure a) (pure a) := fun _ => rfl

theorem bind {x : Action (Guarded N (Logged S)) α} {y : Action (Guarded N S) α}
    {f : α → Action (Guarded N (Logged S)) β} {g : α → Action (Guarded N S) β}
    (hx : Matches x y) (hf : ∀ a, Matches (f a) (g a)) : Matches (x >>= f) (y >>= g) := by
  intro m
  rw [EStateM.run_bind, EStateM.run_bind, hx m]
  rcases x.run m with ⟨a, m'⟩ | ⟨halt, m'⟩
  · exact hf a m'
  · rfl

theorem get_bind {f : Machine (Guarded N (Logged S)) → Action (Guarded N (Logged S)) β}
    {g : Machine (Guarded N S) → Action (Guarded N S) β}
    (hf : ∀ m, Matches (f m) (g (unlogged m))) : Matches (get >>= f) (get >>= g) :=
  fun m => hf m m

theorem orTrap (r : Except Trap α) :
    Matches (N := N) (S := S) (Action.orTrap r) (Action.orTrap r) := by
  cases r <;> exact fun _ => rfl

theorem modifyMemory (f : Memory → Memory) :
    Matches (N := N) (S := S) (Action.modifyMemory f) (Action.modifyMemory f) := fun _ => rfl

theorem amend (c : Ledger.Change N) : Matches (S := S) (amend c) (amend c) := fun _ => rfl

theorem tell (pieces : List Bytes) :
    Matches (N := N) (S := S) (Action.tell pieces) (Action.tell pieces) := by
  intro m
  rw [Action.run_tell, Action.run_tell]
  rfl

theorem die (f : Fatal) : Matches (N := N) (S := S) (α := α) (Action.die f) (Action.die f) :=
  (tell f.report).bind fun _ _ => rfl

theorem strike (a : Nat) : Matches (N := N) (S := S) (strike a) (strike a) := by
  refine get_bind fun m => (orTrap _).bind fun r => ?_
  cases r with
  | none => exact pure _
  | some e =>
    refine get_bind fun m => ?_
    rw [unlogged_memory]
    cases RedZone.check m.memory (a - RedZone.width) e.size with
    | some d => exact pure _
    | none =>
      refine get_bind fun m => (orTrap _).bind fun r => ?_
      cases r with
      | none => exact pure _
      | some c => exact (amend c.2).bind fun _ => pure _

theorem enroll (e : Entry) : Matches (N := N) (S := S) (enroll e) (enroll e) := by
  refine get_bind fun m => (orTrap _).bind fun r => ?_
  cases r with
  | none => exact pure _
  | some c => exact (amend c).bind fun _ => pure _

variable [BlockSource S]

theorem reserve (bytes : Nat) (kind : Kind) :
    Matches (N := N) (S := S) (reserve bytes kind) (reserve bytes kind) := fun _ => rfl

theorem giveBack (base : Nat) :
    Matches (N := N) (S := S) (giveBack base) (giveBack base) := fun _ => rfl

theorem allocZeroed (bytes : Nat) (kind : Kind) :
    Matches (N := N) (S := S) (allocZeroed bytes kind) (allocZeroed bytes kind) := by
  unfold Guarded.allocZeroed
  dsimp only
  split
  · exact pure _
  · refine (reserve _ kind).bind fun block => ?_
    cases block with
    | none => exact pure _
    | some base =>
      refine (modifyMemory _).bind fun _ => (enroll _).bind fun done => ?_
      cases done with
      | true => exact pure _
      | false => exact (giveBack base).bind fun _ => pure _

theorem tryRelease (a : Nat) :
    Matches (N := N) (S := S) (tryRelease a) (tryRelease a) := by
  refine (strike a).bind fun r => ?_
  cases r with
  | error fault => exact pure _
  | ok size => exact (modifyMemory _).bind fun _ => (giveBack _).bind fun _ => pure _

theorem release (a : Nat) : Matches (N := N) (S := S) (release a) (release a) := by
  unfold Guarded.release
  split
  · exact pure _
  · refine (tryRelease a).bind fun r => ?_
    cases r with
    | error fault => exact die _
    | ok => exact pure _

theorem alloc (bytes : Nat) (kind : Kind) : Matches (N := N) (S := S)
    (Heap.alloc bytes kind) (Heap.alloc bytes kind) := by
  refine (allocZeroed _ kind).bind fun r => ?_
  cases r <;> exact pure _

theorem perform (r : Request) : Matches (N := N) (S := S) (perform r) (perform r) := by
  cases r with
  | alloc bytes kind => exact (alloc bytes kind).bind fun _ => pure _
  | allocZeroed bytes kind => exact (allocZeroed bytes kind).bind fun _ => pure _
  | tryRelease a => exact (tryRelease a).bind fun _ => pure _
  | release a => exact (release a).bind fun _ => pure _
  | write a bs => exact (modifyMemory _).bind fun _ => pure _

end Matches

variable [BlockSource S]

theorem exec_unlogged (m : Machine (Guarded N (Logged S))) (r : Request) :
    exec (unlogged m) r = ((exec m r).1, unlogged (exec m r).2) := by
  rw [exec, exec, Matches.perform r m]
  cases (perform r).run m <;> rfl

/-- A run over the bare source, read off the recorded one. -/
theorem play_eq_recorded (m₀ : Machine (Guarded N S)) (rs : List Request) :
    play m₀ rs = ((play (recorded m₀) rs).1, unlogged (play (recorded m₀) rs).2) := by
  induction rs with
  | nil => rfl
  | cons r rs ih => simp only [play, ih, exec_unlogged]

end HeapGuard.Guarded
