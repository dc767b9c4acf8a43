import HeapGuard.SpinLock
import Mathlib.Data.List.Basic
import Mathlib.Logic.ExistsUnique

/-! # Rounds under the lock

A thread that gets the lock starts a round, and the rounds are told in the order in which the
lock was got. Whatever thread makes the next step, and whether or not exchanges fail without
cause, at most one thread has the lock, and the value is what the updates of the rounds make of
the first one, each applied to what the round before has left. So a thread never writes over an
update that it has not read.
-/

namespace HeapGuard.SpinLock

variable {α : Type}

def Phase.holds : Phase α → Bool
  | outside | waiting => false
  | locked | loaded _ | stored => true

def State.Holds (s : State α) (i : Nat) : Prop :=
  ∃ t, s.threads[i]? = some t ∧ t.phase.holds = true

/-- A thread has got the lock to make an update, and may have made it. -/
structure Round (α : Type) where
  thread : Nat
  update : α → α
  written : Bool

def complete (i : Nat) (rounds : List (Round α)) : List (Round α) :=
  rounds.map fun r => if r.thread = i then { r with written := true } else r

/-- The rounds after a step of thread `i`: getting the lock starts one, and writing the value
completes it. -/
def Thread.record (i : Nat) (t t' : Thread α) (rounds : List (Round α)) : List (Round α) :=
  match t.phase, t'.phase, t.updates with
  | .outside, .locked, f :: _ => ⟨i, f, false⟩ :: rounds
  | .loaded _, .stored, _ => complete i rounds
  | _, _, _ => rounds

/-- The rounds whose write is made, in the order in which the lock was got for them. -/
def completed (rounds : List (Round α)) : List (Round α) :=
  (rounds.filter fun r => r.written).reverse

def madeBy (i : Nat) (rounds : List (Round α)) : List (α → α) :=
  ((completed rounds).filter fun r => r.thread = i).map Round.update

/-- Threads around a lock and the rounds so far, the latest first. -/
structure Trace (α : Type) where
  state : State α
  rounds : List (Round α)

namespace Trace

def start (value : α) (updates : List (List (α → α))) : Trace α := ⟨.start value updates, []⟩

def step (c : Trace α) (i : Nat) (spurious : Bool) : Trace α :=
  match c.state.step i spurious with
  | none => c
  | some s =>
    match c.state.threads[i]?, s.threads[i]? with
    | some t, some t' => ⟨s, t.record i t' c.rounds⟩
    | _, _ => ⟨s, c.rounds⟩

/-- The steps of threads in turn, each with whether its exchange fails without cause. -/
def run (c : Trace α) (turns : List (Nat × Bool)) : Trace α :=
  turns.foldl (fun c turn => c.step turn.1 turn.2) c

end Trace

/-- What a thread may do, by where it stands. -/
inductive Thread.Does (flag : Bool) (value : α) : Thread α → Bool → α → Thread α → Prop
  | fail {f fs} : Does flag value ⟨f :: fs, .outside⟩ flag value ⟨f :: fs, .waiting⟩
  | acquire {f fs} (hfree : flag = false) :
      Does flag value ⟨f :: fs, .outside⟩ true value ⟨f :: fs, .locked⟩
  | look {us} :
      Does flag value ⟨us, .waiting⟩ flag value ⟨us, if flag then .waiting else .outside⟩
  | read {us} : Does flag value ⟨us, .locked⟩ flag value ⟨us, .loaded value⟩
  | pass {v} : Does flag value ⟨[], .loaded v⟩ flag value ⟨[], .stored⟩
  | write {f fs v} : Does flag value ⟨f :: fs, .loaded v⟩ flag (f v) ⟨fs, .stored⟩
  | release {us} : Does flag value ⟨us, .stored⟩ false value ⟨us, .outside⟩

theorem Thread.does_of_step {spurious flag flag' : Bool} {value value' : α} {t t' : Thread α}
    (h : t.step spurious flag value = some (flag', value', t')) :
    Does flag value t flag' value' t' := by
  obtain ⟨us, phase⟩ := t
  cases phase with
  | outside =>
    cases us with
    | nil => cases h
    | cons f fs =>
      simp only [step] at h
      split at h
      · cases h
        exact .fail
      · next hno =>
        cases h
        simp only [Bool.or_eq_true, not_or, Bool.not_eq_true] at hno
        exact .acquire hno.1
  | waiting =>
    cases h
    exact .look
  | locked =>
    cases h
    exact .read
  | loaded v =>
    cases us with
    | nil =>
      cases h
      exact .pass
    | cons f fs =>
      cases h
      exact .write
  | stored =>
    cases h
    exact .release

theorem Trace.step_cases (c : Trace α) (i : Nat) (spurious : Bool) :
    c.step i spurious = c ∨ ∃ t flag value t', c.state.threads[i]? = some t ∧
      t.Does c.state.flag c.state.value flag value t' ∧
      c.step i spurious =
        ⟨⟨flag, value, c.state.threads.set i t'⟩, t.record i t' c.rounds⟩ := by
  rcases ht : c.state.threads[i]? with _ | t
  · left
    simp [step, State.step, ht]
  · rcases hs : t.step spurious c.state.flag c.state.value with _ | ⟨flag, value, t'⟩
    · left
      simp only [step, State.step, ht, bind, Option.bind, hs]
    · right
      have hi : i < c.state.threads.length := (List.getElem?_eq_some_iff.mp ht).1
      have hset : (c.state.threads.set i t')[i]? = some t' := List.getElem?_set_self hi
      refine ⟨t, flag, value, t', rfl, Thread.does_of_step hs, ?_⟩
      simp only [step, State.step, ht, bind, Option.bind, hs, pure, hset]

section Rounds

variable {i j : Nat} {f : α → α} {rounds : List (Round α)}

theorem complete_cons {w : Bool} :
    complete i (⟨i, f, w⟩ :: rounds) = ⟨i, f, true⟩ :: complete i rounds := by
  simp [complete]

theorem complete_eq_self (h : ∀ r ∈ rounds, r.written = true) : complete i rounds = rounds := by
  refine (List.map_congr_left fun r hr => ?_).trans (List.map_id rounds)
  split
  · rw [← h r hr]
    rfl
  · rfl

theorem completed_cons_written :
    completed (⟨i, f, true⟩ :: rounds) = completed rounds ++ [⟨i, f, true⟩] := by
  simp [completed]

theorem madeBy_cons_written : madeBy j (⟨i, f, true⟩ :: rounds) =
    if j = i then madeBy j rounds ++ [f] else madeBy j rounds := by
  rw [madeBy, completed_cons_written, List.filter_append, List.map_append]
  split
  · next hj => simp [madeBy, hj]
  · next hj => simp [madeBy, Ne.symm hj]

end Rounds

/-! ## The invariant -/

/-- How far thread `i` is with its round. It is the latest round, and all others are complete. -/
inductive Due (value : α) (i : Nat) : Thread α → List (Round α) → Prop
  | locked {f fs rounds} (h : ∀ r ∈ rounds, r.written = true) :
      Due value i ⟨f :: fs, .locked⟩ (⟨i, f, false⟩ :: rounds)
  | loaded {f fs rounds} (h : ∀ r ∈ rounds, r.written = true) :
      Due value i ⟨f :: fs, .loaded value⟩ (⟨i, f, false⟩ :: rounds)
  | stored {us rounds} (h : ∀ r ∈ rounds, r.written = true) : Due value i ⟨us, .stored⟩ rounds

theorem Due.of_locked {value : α} {i : Nat} {us : List (α → α)} {rounds : List (Round α)}
    (h : Due value i ⟨us, .locked⟩ rounds) : Due value i ⟨us, .loaded value⟩ rounds := by
  cases h with
  | locked hw => exact .loaded hw

theorem Due.of_loaded {value v : α} {i : Nat} {us : List (α → α)} {rounds : List (Round α)}
    (h : Due value i ⟨us, .loaded v⟩ rounds) : v = value ∧ ∃ f fs earlier, us = f :: fs ∧
      rounds = ⟨i, f, false⟩ :: earlier ∧ ∀ r ∈ earlier, r.written = true := by
  cases h with
  | loaded hw => exact ⟨rfl, _, _, _, rfl, rfl, hw⟩

theorem Due.of_stored {value : α} {i : Nat} {us : List (α → α)} {rounds : List (Round α)}
    (h : Due value i ⟨us, .stored⟩ rounds) : ∀ r ∈ rounds, r.written = true := by
  cases h with
  | stored hw => exact hw

/-- The lock has an owner or none, and only an owner's round may be incomplete. -/
structure Inv (value : α) (updates : List (List (α → α))) (c : Trace α) (owner : Option Nat) :
    Prop where
  holds_iff : ∀ i, c.state.Holds i ↔ owner = some i
  flag_eq : c.state.flag = owner.isSome
  free : owner = none → ∀ r ∈ c.rounds, r.written = true
  due : ∀ i t, c.state.threads[i]? = some t → t.phase.holds = true →
    Due c.state.value i t c.rounds
  value_eq : c.state.value = (completed c.rounds).foldl (fun v r => r.update v) value
  share_eq : ∀ i, updates[i]? = c.state.threads[i]?.map fun t => madeBy i c.rounds ++ t.updates
  thread_lt : ∀ r ∈ c.rounds, r.thread < updates.length

theorem not_holds_start (value : α) (updates : List (List (α → α))) (i : Nat) :
    ¬ (State.start value updates).Holds i := by
  rintro ⟨t, ht, hh⟩
  rw [State.start, List.getElem?_map, Option.map_eq_some_iff] at ht
  obtain ⟨us, -, rfl⟩ := ht
  cases hh

theorem inv_start (value : α) (updates : List (List (α → α))) :
    Inv value updates (.start value updates) none where
  holds_iff i := iff_of_false (not_holds_start value updates i) (by simp)
  flag_eq := rfl
  free _ _ hr := by cases hr
  due i t ht hh := absurd ⟨t, ht, hh⟩ (not_holds_start value updates i)
  value_eq := rfl
  share_eq i := by
    simp [Trace.start, State.start, madeBy, completed, Function.comp_def]
  thread_lt _ hr := by cases hr

namespace Inv

variable {value : α} {updates : List (List (α → α))} {c : Trace α} {owner owner' : Option Nat}
  {i : Nat} {t t' : Thread α} {v : α} {flag : Bool} {rounds : List (Round α)}

theorem owner_eq (h : Inv value updates c owner) (ht : c.state.threads[i]? = some t)
    (hh : t.phase.holds = true) : owner = some i :=
  (h.holds_iff i).mp ⟨t, ht, hh⟩

theorem owner_ne (h : Inv value updates c owner) (ht : c.state.threads[i]? = some t)
    (hh : t.phase.holds = false) : owner ≠ some i := by
  intro ho
  obtain ⟨u, hu, huh⟩ := (h.holds_iff i).mpr ho
  rw [ht, Option.some_inj] at hu
  rw [hu, huh] at hh
  cases hh

theorem owner_eq_none (h : Inv value updates c owner) (hf : c.state.flag = false) :
    owner = none := by
  rw [h.flag_eq] at hf
  simpa using hf

theorem lt_length (h : Inv value updates c owner) (ht : c.state.threads[i]? = some t) :
    i < updates.length := by
  have hs := h.share_eq i
  rw [ht, Option.map_some] at hs
  exact (List.getElem?_eq_some_iff.mp hs).1

/-- What has to be said of a step in which only thread `i` moves. -/
theorem set (h : Inv value updates c owner) (ht : c.state.threads[i]? = some t)
    (hown : t'.phase.holds = true ↔ owner' = some i)
    (hothers : ∀ j ≠ i, owner' = some j ↔ owner = some j) (hflag : flag = owner'.isSome)
    (hfree : owner' = none → ∀ r ∈ rounds, r.written = true)
    (hdue : t'.phase.holds = true → Due v i t' rounds)
    (hsame : ∀ j ≠ i, owner = some j → v = c.state.value ∧ rounds = c.rounds)
    (hvalue : v = (completed rounds).foldl (fun v r => r.update v) value)
    (hshare : madeBy i rounds ++ t'.updates = madeBy i c.rounds ++ t.updates)
    (hshares : ∀ j ≠ i, madeBy j rounds = madeBy j c.rounds)
    (hlt : ∀ r ∈ rounds, r.thread < updates.length) :
    Inv value updates ⟨⟨flag, v, c.state.threads.set i t'⟩, rounds⟩ owner' := by
  have hget (j : Nat) : (c.state.threads.set i t')[j]? =
      if j = i then some t' else c.state.threads[j]? := by
    split
    · next hj => rw [hj, List.getElem?_set_self (List.getElem?_eq_some_iff.mp ht).1]
    · next hj => rw [List.getElem?_set_ne (Ne.symm hj)]
  constructor
  · intro j
    by_cases hj : j = i
    · subst hj
      simp [State.Holds, hget, hown]
    · rw [hothers j hj, ← h.holds_iff j]
      simp [State.Holds, hget, hj]
  · exact hflag
  · exact hfree
  · intro j u hu hh
    simp only [hget] at hu
    split at hu
    · next hj =>
      cases hu
      rw [hj]
      exact hdue hh
    · next hj =>
      obtain ⟨rfl, rfl⟩ := hsame j hj (h.owner_eq hu hh)
      exact h.due j u hu hh
  · exact hvalue
  · intro j
    simp only [hget]
    split
    · next hj => rw [hj, h.share_eq i, ht, Option.map_some, Option.map_some, hshare]
    · next hj => rw [h.share_eq j, hshares j hj]
  · exact hlt

theorem idle (h : Inv value updates c owner) (ht : c.state.threads[i]? = some t)
    (hh : t.phase.holds = false) (hh' : t'.phase.holds = false) (hu : t'.updates = t.updates) :
    Inv value updates ⟨⟨c.state.flag, c.state.value, c.state.threads.set i t'⟩, c.rounds⟩
      owner := by
  apply h.set ht
  · exact iff_of_false (by simp [hh']) (h.owner_ne ht hh)
  · exact fun j hj => Iff.rfl
  · exact h.flag_eq
  · exact h.free
  · intro hno
    rw [hh'] at hno
    cases hno
  · exact fun j hj ho => ⟨rfl, rfl⟩
  · exact h.value_eq
  · rw [hu]
  · exact fun j hj => rfl
  · exact h.thread_lt

theorem acquire {f : α → α} {fs : List (α → α)} (h : Inv value updates c owner)
    (ht : c.state.threads[i]? = some ⟨f :: fs, .outside⟩) (hf : c.state.flag = false) :
    Inv value updates
      ⟨⟨true, c.state.value, c.state.threads.set i ⟨f :: fs, .locked⟩⟩, ⟨i, f, false⟩ :: c.rounds⟩
      (some i) := by
  obtain rfl := h.owner_eq_none hf
  apply h.set ht
  · exact iff_of_true rfl rfl
  · intro j hj
    simp [Ne.symm hj]
  · rfl
  · intro hno
    cases hno
  · exact fun _ => .locked (h.free rfl)
  · intro j hj ho
    cases ho
  · exact h.value_eq
  · rfl
  · exact fun j hj => rfl
  · exact List.forall_mem_cons.mpr ⟨h.lt_length ht, h.thread_lt⟩

theorem advance (h : Inv value updates c owner) (ht : c.state.threads[i]? = some t)
    (hh : t.phase.holds = true) (hh' : t'.phase.holds = true) (hdue : Due v i t' rounds)
    (hvalue : v = (completed rounds).foldl (fun v r => r.update v) value)
    (hshare : madeBy i rounds ++ t'.updates = madeBy i c.rounds ++ t.updates)
    (hshares : ∀ j ≠ i, madeBy j rounds = madeBy j c.rounds)
    (hlt : ∀ r ∈ rounds, r.thread < updates.length) :
    Inv value updates ⟨⟨c.state.flag, v, c.state.threads.set i t'⟩, rounds⟩ (some i) := by
  obtain rfl := h.owner_eq ht hh
  apply h.set ht
  · exact iff_of_true hh' rfl
  · exact fun j hj => Iff.rfl
  · exact h.flag_eq
  · intro hno
    cases hno
  · exact fun _ => hdue
  · intro j hj ho
    exact absurd (Option.some_inj.mp ho).symm hj
  · exact hvalue
  · exact hshare
  · exact hshares
  · exact hlt

theorem read {us : List (α → α)} (h : Inv value updates c owner)
    (ht : c.state.threads[i]? = some ⟨us, .locked⟩) :
    Inv value updates
      ⟨⟨c.state.flag, c.state.value, c.state.threads.set i ⟨us, .loaded c.state.value⟩⟩, c.rounds⟩
      (some i) := by
  apply h.advance ht rfl rfl
  · exact (h.due i _ ht rfl).of_locked
  · exact h.value_eq
  · rfl
  · exact fun j hj => rfl
  · exact h.thread_lt

/-- The value written is the update of the value at hand, not of an older one. -/
theorem write {f : α → α} {fs : List (α → α)} (h : Inv value updates c owner)
    (ht : c.state.threads[i]? = some ⟨f :: fs, .loaded v⟩) :
    Inv value updates
      ⟨⟨c.state.flag, f v, c.state.threads.set i ⟨fs, .stored⟩⟩, complete i c.rounds⟩ (some i) := by
  -- nobody else has written since the read, so what was read is the value at hand
  obtain ⟨rfl, _, _, earlier, ⟨⟩, hrounds, hw⟩ := (h.due i _ ht rfl).of_loaded
  have hcomplete : complete i c.rounds = ⟨i, f, true⟩ :: earlier := by
    rw [hrounds, complete_cons, complete_eq_self hw]
  have hvalue := h.value_eq
  have hlt := h.thread_lt
  rw [hrounds] at hvalue hlt
  rw [hcomplete]
  apply h.advance ht rfl rfl
  · exact .stored (List.forall_mem_cons.mpr ⟨rfl, hw⟩)
  · rw [completed_cons_written, List.foldl_append, List.foldl_cons, List.foldl_nil]
    exact congrArg f hvalue
  · rw [madeBy_cons_written, if_pos rfl, List.append_assoc, hrounds]
    rfl
  · intro j hj
    rw [madeBy_cons_written, if_neg hj, hrounds]
    rfl
  · exact List.forall_mem_cons.mpr (List.forall_mem_cons.mp hlt)

theorem release {us : List (α → α)} (h : Inv value updates c owner)
    (ht : c.state.threads[i]? = some ⟨us, .stored⟩) :
    Inv value updates ⟨⟨false, c.state.value, c.state.threads.set i ⟨us, .outside⟩⟩, c.rounds⟩
      none := by
  obtain rfl := h.owner_eq ht rfl
  apply h.set ht
  · exact iff_of_false (by simp [Phase.holds]) (by simp)
  · intro j hj
    simp [Ne.symm hj]
  · rfl
  · exact fun _ => (h.due i _ ht rfl).of_stored
  · intro hno
    cases hno
  · intro j hj ho
    exact absurd (Option.some_inj.mp ho).symm hj
  · exact h.value_eq
  · rfl
  · exact fun j hj => rfl
  · exact h.thread_lt

theorem step (h : Inv value updates c owner) (i : Nat) (spurious : Bool) :
    ∃ owner', Inv value updates (c.step i spurious) owner' := by
  rcases c.step_cases i spurious with heq | ⟨t, flag, v, t', ht, hdoes, heq⟩
  all_goals rw [heq]
  · exact ⟨owner, h⟩
  · cases hdoes with
    | fail => exact ⟨owner, h.idle ht rfl rfl rfl⟩
    | acquire hfree => exact ⟨some i, h.acquire ht hfree⟩
    | look =>
      refine ⟨owner, h.idle ht rfl ?_ rfl⟩
      dsimp only
      split <;> rfl
    | read => exact ⟨some i, h.read ht⟩
    | pass =>
      -- an owner always has the update of its round still to make
      obtain ⟨-, _, _, _, hnil, -⟩ := (h.due i _ ht rfl).of_loaded
      cases hnil
    | write => exact ⟨some i, h.write ht⟩
    | release => exact ⟨none, h.release ht⟩

theorem run (h : Inv value updates c owner) (turns : List (Nat × Bool)) :
    ∃ owner', Inv value updates (c.run turns) owner' := by
  induction turns generalizing c owner with
  | nil => exact ⟨owner, h⟩
  | cons turn turns ih =>
    obtain ⟨_, h'⟩ := h.step turn.1 turn.2
    exact ih h'

end Inv

/-- One thread at a time has the lock, and the value is what the completed rounds make of the first
one, in the order in which the lock was got. Each thread has made the updates that it has not
still to make. -/
structure Serialized (value : α) (updates : List (List (α → α))) (c : Trace α) : Prop where
  exclusive : ∀ i j, c.state.Holds i → c.state.Holds j → i = j
  flag_iff : c.state.flag = true ↔ ∃! i, c.state.Holds i
  value_eq : c.state.value = (completed c.rounds).foldl (fun v r => r.update v) value
  share_eq : ∀ i, updates[i]? = c.state.threads[i]?.map fun t => madeBy i c.rounds ++ t.updates
  thread_lt : ∀ r ∈ c.rounds, r.thread < updates.length

theorem Inv.serialized {value : α} {updates : List (List (α → α))} {c : Trace α}
    {owner : Option Nat} (h : Inv value updates c owner) : Serialized value updates c where
  exclusive i j hi hj := by
    rw [h.holds_iff] at hi hj
    exact Option.some_inj.mp (hi.symm.trans hj)
  flag_iff := by
    simp only [h.flag_eq, h.holds_iff, Option.isSome_iff_exists]
    constructor
    · rintro ⟨i, rfl⟩
      exact ⟨i, rfl, fun j hj => (Option.some_inj.mp hj).symm⟩
    · rintro ⟨i, hi, -⟩
      exact ⟨i, hi⟩
  value_eq := h.value_eq
  share_eq := h.share_eq
  thread_lt := h.thread_lt

end HeapGuard.SpinLock
