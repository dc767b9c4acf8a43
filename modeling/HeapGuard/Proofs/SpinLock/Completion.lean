import HeapGuard.Proofs.SpinLock.Rounds
import Mathlib.Algebra.BigOperators.Group.Finset.Basic

/-! # Coming to an end

From wherever the threads are, they can make all their updates: a thread that has the lock can
give it back, and a free lock can be got. Four steps of such a thread make an update or free the
lock, and four steps of any other change neither. At the end no update is missing.
-/

namespace HeapGuard.SpinLock

variable {α : Type}

/-! ## Turns of one thread -/

/-- What flag, value and thread become in `k` steps of the thread without mishap. -/
def Thread.steps : (k : Nat) → Bool × α × Thread α → Bool × α × Thread α
  | 0, p => p
  | k + 1, (flag, value, t) => steps k ((t.step false flag value).getD (flag, value, t))

/-- A thread that has the lock, or can get it. -/
def Thread.Able (flag : Bool) (t : Thread α) : Prop :=
  flag = true ∧ t.phase.holds = true ∨ flag = false ∧ t.updates ≠ []

theorem Thread.steps_of_able {flag : Bool} {t : Thread α} (h : t.Able flag) (value : α) :
    let p := steps roundSteps (flag, value, t)
    2 * p.2.2.updates.length + p.1.toNat < 2 * t.updates.length + flag.toNat := by
  obtain ⟨_ | ⟨f, _ | ⟨g, fs⟩⟩, _ | _ | _ | _ | _⟩ := t <;> cases flag <;>
    simp_all [Able, Phase.holds, roundSteps, steps, Thread.step] <;> omega

theorem Thread.steps_of_not_able {flag : Bool} {t : Thread α} (h : ¬ t.Able flag) (value : α) :
    let p := steps roundSteps (flag, value, t)
    p.1 = flag ∧ p.2.2.updates = t.updates := by
  obtain ⟨_ | ⟨f, fs⟩, _ | _ | _ | _ | _⟩ := t <;> cases flag <;>
    simp_all [Able, Phase.holds, roundSteps, steps, Thread.step]

namespace State

variable {s : State α} {i : Nat} {t : Thread α}

def turn (s : State α) (i : Nat) : State α := s.run (List.replicate roundSteps i)

/-- Twice the updates still to be made, and one more if the lock is taken. -/
def effort (s : State α) : Nat :=
  2 * (s.threads.flatMap fun t => t.updates).length + s.flag.toNat

def Able (s : State α) (i : Nat) : Prop := ∃ t, s.threads[i]? = some t ∧ t.Able s.flag

theorem run_replicate_of_none (h : s.threads[i]? = none) (k : Nat) :
    s.run (List.replicate k i) = s := by
  induction k with
  | zero => rfl
  | succ k ih =>
    have hstep : s.step i false = none := by simp only [step, h, bind, Option.bind]
    rw [List.replicate_succ, run, List.foldl_cons, hstep]
    exact ih

theorem set_self (h : s.threads[i]? = some t) : s.threads.set i t = s.threads := by
  obtain ⟨hi, rfl⟩ := List.getElem?_eq_some_iff.mp h
  exact List.set_getElem_self hi

theorem getD_step (h : s.threads[i]? = some t) :
    let p := (t.step false s.flag s.value).getD (s.flag, s.value, t)
    (s.step i false).getD s = ⟨p.1, p.2.1, s.threads.set i p.2.2⟩ := by
  rcases hs : t.step false s.flag s.value with _ | ⟨flag, value, t'⟩
  · simp only [step, h, hs, bind, Option.bind, Option.getD_none, set_self h]
  · simp only [step, h, hs, bind, Option.bind, pure, Option.getD_some]

theorem run_replicate (h : s.threads[i]? = some t) (k : Nat) :
    let p := Thread.steps k (s.flag, s.value, t)
    s.run (List.replicate k i) = ⟨p.1, p.2.1, s.threads.set i p.2.2⟩ := by
  induction k generalizing s t with
  | zero =>
    simp only [Thread.steps, set_self h]
    rfl
  | succ k ih =>
    have hi := (List.getElem?_eq_some_iff.mp h).1
    rw [List.replicate_succ, run, List.foldl_cons, getD_step h]
    refine (ih (List.getElem?_set_self hi)).trans ?_
    simp only [Thread.steps, List.set_set]

theorem turn_eq (h : s.threads[i]? = some t) :
    let p := Thread.steps roundSteps (s.flag, s.value, t)
    s.turn i = ⟨p.1, p.2.1, s.threads.set i p.2.2⟩ :=
  run_replicate h roundSteps

theorem length_flatMap_set {threads : List (Thread α)} (h : threads[i]? = some t)
    (t' : Thread α) :
    ((threads.set i t').flatMap fun t => t.updates).length + t.updates.length =
      (threads.flatMap fun t => t.updates).length + t'.updates.length := by
  induction threads generalizing i with
  | nil => cases h
  | cons u threads ih =>
    cases i with
    | zero =>
      cases h
      simp only [List.set_cons_zero, List.flatMap_cons, List.length_append]
      omega
    | succ i =>
      have hrest := ih (List.getElem?_cons_succ ▸ h)
      simp only [List.set_cons_succ, List.flatMap_cons, List.length_append]
      omega

/-- The turn of a thread that is able brings the end nearer. -/
theorem effort_turn_lt (h : s.Able i) : (s.turn i).effort < s.effort := by
  obtain ⟨t, ht, hable⟩ := h
  have hturn := turn_eq ht
  have hsteps := Thread.steps_of_able hable s.value
  generalize Thread.steps roundSteps (s.flag, s.value, t) = p at hturn hsteps
  have hleft := length_flatMap_set ht p.2.2
  rw [hturn]
  unfold effort
  dsimp only at hsteps ⊢
  omega

theorem turn_of_not_able (h : ¬ s.Able i) : (s.turn i).effort = s.effort ∧
    ∀ j, s.Able j → (s.turn i).Able j := by
  rcases ht : s.threads[i]? with _ | t
  · rw [turn, run_replicate_of_none ht]
    exact ⟨rfl, fun j hj => hj⟩
  · have hturn := turn_eq ht
    have hsteps := Thread.steps_of_not_able (fun hable => h ⟨t, ht, hable⟩) s.value
    generalize Thread.steps roundSteps (s.flag, s.value, t) = p at hturn hsteps
    obtain ⟨hflag, hupdates⟩ := hsteps
    have hleft := length_flatMap_set ht p.2.2
    rw [hturn]
    constructor
    · unfold effort
      dsimp only
      rw [hflag]
      rw [hupdates] at hleft
      omega
    · intro j hj
      have hne : i ≠ j := by
        rintro rfl
        exact h hj
      obtain ⟨u, hu, hable⟩ := hj
      refine ⟨u, ?_, ?_⟩
      · exact (List.getElem?_set_ne hne).trans hu
      · exact hflag ▸ hable

theorem effort_foldl_turn_le (s : State α) (order : List Nat) :
    (order.foldl turn s).effort ≤ s.effort := by
  induction order generalizing s with
  | nil => exact Nat.le_refl _
  | cons i order ih =>
    refine Nat.le_trans (ih (s.turn i)) ?_
    by_cases h : s.Able i
    · exact Nat.le_of_lt (effort_turn_lt h)
    · exact Nat.le_of_eq (turn_of_not_able h).1

theorem effort_foldl_turn_lt {order : List Nat} (hi : i ∈ order) (h : s.Able i) :
    (order.foldl turn s).effort < s.effort := by
  induction order generalizing s with
  | nil => cases hi
  | cons j order ih =>
    rw [List.foldl_cons]
    by_cases hj : s.Able j
    · exact Nat.lt_of_le_of_lt (effort_foldl_turn_le _ order) (effort_turn_lt hj)
    · obtain ⟨heq, hkeep⟩ := turn_of_not_able hj
      have hne : i ≠ j := by
        rintro rfl
        exact hj h
      rw [← heq]
      exact ih ((List.mem_cons.mp hi).resolve_left hne) (hkeep i h)

theorem run_flatMap (s : State α) (order : List Nat) :
    s.run (order.flatMap (List.replicate roundSteps)) = order.foldl turn s :=
  List.foldl_flatMap ..

theorem isDone_iff : s.isDone = true ↔ ∀ t ∈ s.threads, t.updates = [] := by
  simp [isDone]

theorem isDone_of_effort (h : s.effort = 0) : s.isDone = true := by
  rw [isDone_iff]
  intro t ht
  have hnone : (s.threads.flatMap fun t => t.updates) = [] := by
    apply List.eq_nil_of_length_eq_zero
    unfold effort at h
    omega
  exact List.flatMap_eq_nil_iff.mp hnone t ht

end State

/-! ## Making all updates -/

namespace Trace

theorem state_step (c : Trace α) (i : Nat) (spurious : Bool) :
    (c.step i spurious).state = (c.state.step i spurious).getD c.state := by
  unfold step
  rcases c.state.step i spurious with _ | s
  · rfl
  · dsimp only
    split <;> rfl

/-- The rounds are only told: they do not change what the threads do. -/
theorem state_run (c : Trace α) (turns : List (Nat × Bool)) :
    (c.run turns).state = turns.foldl (fun s turn => (s.step turn.1 turn.2).getD s) c.state := by
  induction turns generalizing c with
  | nil => rfl
  | cons turn turns ih =>
    rw [run, List.foldl_cons, List.foldl_cons, ← state_step]
    exact ih _

theorem state_run_smooth (c : Trace α) (schedule : List Nat) :
    (c.run (schedule.map fun i => (i, false))).state = c.state.run schedule := by
  rw [state_run, List.foldl_map]
  rfl

theorem run_append (c : Trace α) (first second : List (Nat × Bool)) :
    c.run (first ++ second) = (c.run first).run second :=
  List.foldl_append

end Trace

namespace Inv

variable {value : α} {updates : List (List (α → α))} {c : Trace α} {owner : Option Nat}

/-- As long as there are updates to make, some thread is able. -/
theorem exists_able (h : Inv value updates c owner) (hd : ¬ c.state.isDone = true) :
    ∃ i ∈ List.range c.state.threads.length, c.state.Able i := by
  have hmem {i : Nat} (ha : c.state.Able i) : i ∈ List.range c.state.threads.length := by
    obtain ⟨t, ht, -⟩ := ha
    exact List.mem_range.mpr (List.getElem?_eq_some_iff.mp ht).1
  have hflag := h.flag_eq
  cases owner with
  | none =>
    -- the lock is free for any thread that has an update to make
    rw [State.isDone_iff] at hd
    push Not at hd
    obtain ⟨t, ht, hne⟩ := hd
    obtain ⟨i, hi⟩ := List.mem_iff_getElem?.mp ht
    have ha : c.state.Able i := ⟨t, hi, .inr ⟨hflag, hne⟩⟩
    exact ⟨i, hmem ha, ha⟩
  | some i =>
    -- the owner itself can go on, whatever it has still to do
    obtain ⟨t, ht, hh⟩ := (h.holds_iff i).mpr rfl
    have ha : c.state.Able i := ⟨t, ht, .inl ⟨hflag, hh⟩⟩
    exact ⟨i, hmem ha, ha⟩

/-- Sweeps make all updates, if there are enough of them. -/
theorem sweep_isDone (h : Inv value updates c owner) {k : Nat} (hk : c.state.effort ≤ k) :
    ∃ later, (c.run later).state = c.state.sweep k ∧ (c.state.sweep k).isDone = true := by
  induction k generalizing c owner with
  | zero => exact ⟨[], rfl, State.isDone_of_effort (Nat.le_zero.mp hk)⟩
  | succ k ih =>
    rw [State.sweep]
    split
    · next hd => exact ⟨[], rfl, hd⟩
    · next hd =>
      obtain ⟨i, hi, ha⟩ := h.exists_able hd
      have hless := State.effort_foldl_turn_lt hi ha
      rw [← State.run_flatMap, ← c.state_run_smooth] at hless
      rw [← c.state_run_smooth]
      obtain ⟨_, h'⟩ := h.run (((List.range c.state.threads.length).flatMap
        (List.replicate roundSteps)).map fun i => (i, false))
      obtain ⟨later, hlater, hdone⟩ := ih h' (by omega)
      exact ⟨_, (congrArg Trace.state (c.run_append _ later)).trans hlater, hdone⟩

theorem finish_isDone (h : Inv value updates c owner) :
    ∃ later, (c.run later).state = c.state.finish ∧ c.state.finish.isDone = true := by
  apply h.sweep_isDone
  have hflag := Bool.toNat_le c.state.flag
  unfold State.effort
  omega

end Inv

/-! ## No update is lost -/

section Increments

variable {k m n : Nat} {rounds : List (Round α)}

theorem length_madeBy (i : Nat) (rounds : List (Round α)) :
    (madeBy i rounds).length = ((completed rounds).map Round.thread).count i := by
  rw [madeBy, List.length_map, List.count_eq_countP, List.countP_map, List.countP_eq_length_filter]
  rfl

theorem sum_length_madeBy (h : ∀ r ∈ rounds, r.thread < k) :
    ∑ i ∈ Finset.range k, (madeBy i rounds).length = (completed rounds).length := by
  have hmem : ∀ i ∈ ((completed rounds).map Round.thread : Multiset Nat), i ∈ Finset.range k := by
    intro i hi
    obtain ⟨r, hr, rfl⟩ := List.mem_map.mp (Multiset.mem_coe.mp hi)
    exact Finset.mem_range.mpr (h r (List.mem_filter.mp (List.mem_reverse.mp hr)).1)
  have hsum := Multiset.sum_count_eq_card hmem
  simp only [Multiset.coe_count, Multiset.coe_card, List.length_map] at hsum
  simp only [length_madeBy, hsum]

theorem mem_madeBy {r : Round α} (h : r ∈ completed rounds) :
    r.update ∈ madeBy r.thread rounds :=
  List.mem_map_of_mem (List.mem_filter.mpr ⟨h, decide_eq_true rfl⟩)

theorem foldl_increments {l : List (Round Nat)} (h : ∀ r ∈ l, r.update = (· + 1)) (n : Nat) :
    l.foldl (fun v r => r.update v) n = n + l.length := by
  induction l generalizing n with
  | nil => rfl
  | cons r l ih =>
    obtain ⟨hr, hl⟩ := List.forall_mem_cons.mp h
    simp only [List.foldl_cons, hr, ih hl, List.length_cons]
    omega

theorem Serialized.value_of_isDone {c : Trace Nat}
    (h : Serialized n (List.replicate k (List.replicate m (· + 1))) c)
    (hd : c.state.isDone = true) : c.state.value = n + k * m := by
  have hmade (i : Nat) (hi : i < k) : madeBy i c.rounds = List.replicate m (· + 1) := by
    have hs := h.share_eq i
    rw [List.getElem?_replicate_of_lt hi] at hs
    obtain ⟨t, ht, hshare⟩ := Option.map_eq_some_iff.mp hs.symm
    have hnone := State.isDone_iff.mp hd t (List.mem_of_getElem? ht)
    rwa [hnone, List.append_nil] at hshare
  have hthread : ∀ r ∈ c.rounds, r.thread < k := by
    simpa using h.thread_lt
  -- the order of the rounds is not known, but all of them do the same
  have hupdate : ∀ r ∈ completed c.rounds, r.update = (· + 1) := by
    intro r hr
    have hlt := hthread r (List.mem_filter.mp (List.mem_reverse.mp hr)).1
    exact List.eq_of_mem_replicate (hmade r.thread hlt ▸ mem_madeBy hr)
  have hlength : (completed c.rounds).length = k * m := by
    have hsum : ∑ i ∈ Finset.range k, (madeBy i c.rounds).length = (Finset.range k).card * m :=
      Finset.sum_const_nat fun i hi => by
        rw [hmade i (Finset.mem_range.mp hi), List.length_replicate]
    rw [← sum_length_madeBy hthread, hsum, Finset.card_range]
  rw [h.value_eq, foldl_increments hupdate, hlength]

theorem Inv.value_finish {c : Trace Nat} {owner : Option Nat}
    (h : Inv n (List.replicate k (List.replicate m (· + 1))) c owner) :
    c.state.finish.value = n + k * m := by
  obtain ⟨later, hlater, hdone⟩ := h.finish_isDone
  obtain ⟨_, h'⟩ := h.run later
  rw [← hlater] at hdone ⊢
  exact h'.serialized.value_of_isDone hdone

end Increments

theorem count_eq (threads rounds : Nat) : count threads rounds = threads * rounds :=
  (inv_start 0 _).value_finish.trans (Nat.zero_add _)

/-- Whatever threads do under the lock is done one after another: at most one has the lock at any
time, the flag says whether one has it, and the value is what the updates made so far give in the
order in which the lock was got. From wherever they are, the threads can come to an end, and
increments that have come to an end are all counted. -/
theorem run_serialized (value : α) (updates : List (List (α → α))) (turns : List (Nat × Bool)) :
    (let c := (Trace.start value updates).run turns
     c.state = turns.foldl (fun s turn => (s.step turn.1 turn.2).getD s) (.start value updates) ∧
     Serialized value updates c ∧ c.state.finish.isDone = true) ∧
    ∀ n k m : Nat,
      let c := (Trace.start n (List.replicate k (List.replicate m (· + 1)))).run turns
      (c.state.isDone = true → c.state.value = n + k * m) ∧ c.state.finish.value = n + k * m := by
  obtain ⟨_, h⟩ := (inv_start value updates).run turns
  refine ⟨⟨Trace.state_run _ turns, h.serialized, ?_⟩, ?_⟩
  · obtain ⟨_, -, hdone⟩ := h.finish_isDone
    exact hdone
  · intro n k m
    obtain ⟨_, hinc⟩ := (inv_start n (List.replicate k (List.replicate m (· + 1)))).run turns
    exact ⟨hinc.serialized.value_of_isDone, hinc.value_finish⟩

theorem run_serialized_waiting :
    let turns := [(1, true), (0, false), (1, false), (0, false), (0, false), (0, false),
      (1, false), (1, false), (1, false), (1, false)]
    let c := (Trace.start 0 (List.replicate 2 (List.replicate 1 (· + 1)))).run turns
    c.state.isDone = true ∧ c.state.value = 2 :=
  ⟨by decide, ((run_serialized 0 [] _).2 0 2 1).1 (by decide)⟩

end HeapGuard.SpinLock
