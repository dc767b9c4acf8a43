import HeapGuard.Proofs.Contention.Sharing

/-! # Interleavings

Threads take steps in any order. For each address, entering and striking it in the ledger
alternate, so of several threads that give one live block back only one succeeds. What
threads write goes to blocks that are outstanding and not live.
-/

namespace HeapGuard.Contention

open Arena (Event)
open BlockSource (Lawful outstanding)
open Guarded (isLive)
open RedZone (width)
open scoped List

variable {N : Nat} {S : Type}

/-- A step of a thread, and the machine right before it. -/
structure Turn (N : Nat) (S : Type) where
  machine : Machine (Guarded N S)
  before : Phase
  after : Phase

/-- Whether a step enters the address in the ledger (true) or strikes it (false). -/
def Phase.crossing (a : Nat) : Phase → Phase → Option Bool
  | filled .., done (.allocated (some b)) => if b = a then some true else none
  | ready (.release b), struck .. => if b = a then some false else none
  | _, _ => none

def Turn.crossing (a : Nat) (t : Turn N S) : Option Bool := t.before.crossing a t.after

def Phase.writes : Phase → Bool
  | reserved .. | struck .. => true
  | _ => false

variable [BlockSource S]

/-- The steps that the threads take by a schedule, the first one first. -/
def turns (threads : List Phase) (m : Machine (Guarded N S)) : List Nat → List (Turn N S)
  | [] => []
  | i :: schedule =>
    match threads[i]? with
    | none => turns threads m schedule
    | some p =>
      match p.step.run m with
      | .ok q m' => ⟨m, p, q⟩ :: turns (threads.set i q) m' schedule
      | .error .. => []

section Runs

variable {threads : List Phase} {i : Nat} {p : Phase} {schedule : List Nat}

theorem run_cons_of_absent (hi : threads[i]? = none) :
    (run threads (i :: schedule) : Action (Guarded N S) _) = run threads schedule := by
  simp [run, step, hi]

theorem run_cons (hi : threads[i]? = some p) :
    (run threads (i :: schedule) : Action (Guarded N S) _) =
      p.step >>= fun q => run (threads.set i q) schedule := by
  simp [run, step, hi]

/-- A thread does nothing before its first step, so it may as well come later. A thread with several
jobs does the same as one thread for each job. -/
theorem run_append (threads late : List Phase) {schedule : List Nat}
    (h : ∀ i ∈ schedule, i < threads.length) :
    (run (threads ++ late) schedule : Action (Guarded N S) _) =
      (· ++ late) <$> run threads schedule := by
  induction schedule generalizing threads with
  | nil => simp [run]
  | cons i schedule ih =>
    obtain ⟨hi, hrest⟩ := List.forall_mem_cons.mp h
    have hp : threads[i]? = some threads[i] := List.getElem?_eq_getElem hi
    rw [run_cons hp, run_cons ((List.getElem?_append_left hi).trans hp), map_bind]
    congr 1
    funext q
    rw [List.set_append_left _ _ hi, ih _ (by simpa using hrest)]

end Runs

inductive Course (s₀ : S) : List Phase → Machine (Guarded N S) → List (Turn N S) → List Phase →
    Machine (Guarded N S) → Prop
  | refl (threads : List Phase) (m : Machine (Guarded N S)) : Course s₀ threads m [] threads m
  | turn {log : List Event} {threads ends : List Phase} {m m₁ m' : Machine (Guarded N S)}
      {ts : List (Turn N S)} {i : Nat} {p q : Phase} (hm : Shared s₀ log threads m)
      (hi : threads[i]? = some p) (hrun : p.step.run m = .ok q m₁)
      (hmove : Move m.heap.ledger.entries p q m₁.heap.ledger.entries)
      (h : Course s₀ (threads.set i q) m₁ ts ends m') :
      Course s₀ threads m (⟨m, p, q⟩ :: ts) ends m'

variable {s₀ : S} {log : List Event} {threads ends : List Phase} {m m' : Machine (Guarded N S)}
  {ts : List (Turn N S)} {p q : Phase} {E E' : List Entry} {a i : Nat}

/-- No schedule halts the machine. -/
theorem Shared.course (hN : 0 < N) (hs : Lawful s₀) (h : Shared s₀ log threads m)
    (schedule : List Nat) : ∃ ends m' log', (run threads schedule).run m = .ok ends m' ∧
      Shared s₀ log' ends m' ∧ Course s₀ threads m (turns threads m schedule) ends m' := by
  induction schedule generalizing log threads m with
  | nil => exact ⟨threads, m, log, rfl, h, .refl threads m⟩
  | cons i schedule ih =>
    rcases hi : threads[i]? with _ | p
    · rw [run_cons_of_absent hi, turns, hi]
      exact ih h
    · obtain ⟨q, m₁, log₁, hp, h₁, hmove⟩ := h.turn hs hN hi
      obtain ⟨ends, m', log', hrun, h', hc⟩ := ih h₁
      refine ⟨ends, m', log', ?_, h', ?_⟩
      · rw [run_cons hi, EStateM.run_bind, hp]
        exact hrun
      · rw [turns, hi]
        simp only [hp]
        exact .turn h hi hp hmove hc

section Alternation

def live (a : Nat) (E : List Entry) : Bool := decide (a ∈ E.map Entry.addr)

theorem live_eq_of_perm {e : Entry} (h : E' ~ e :: E) (a : Nat) :
    live a E' = (decide (e.addr = a) || live a E) := by
  have hmem : a ∈ E'.map Entry.addr ↔ e.addr = a ∨ a ∈ E.map Entry.addr := by
    rw [(h.map Entry.addr).mem_iff, List.map_cons, List.mem_cons, eq_comm]
  simp only [live, hmem, Bool.decide_or]

theorem Move.live_eq (h : Move E p q E') (a : Nat) :
    live a E' = (p.crossing a q).getD (live a E) := by
  cases h with
  | @enter _ base n k ha hp =>
    rw [live_eq_of_perm hp, Phase.crossing]
    by_cases hab : base + width = a <;> simp [hab]
  | @strike _ e ha hp =>
    rw [live_eq_of_perm hp, Phase.crossing]
    by_cases hab : e.addr = a
    · subst hab
      simpa [live] using ha
    · simp [hab]
  | _ => rfl

theorem Move.crossing_ne (h : Move E p q E') {b : Bool} (hb : p.crossing a q = some b) :
    live a E ≠ b := by
  cases h with
  | enter ha hp =>
    obtain ⟨rfl, hbool⟩ := (Option.ite_none_right_eq_some ..).mp hb
    cases hbool
    simpa [live] using ha
  | strike ha hp =>
    obtain ⟨rfl, hbool⟩ := (Option.ite_none_right_eq_some ..).mp hb
    cases hbool
    simp [live_eq_of_perm hp]
  | _ => cases hb

/-- An address is entered and struck in turn. -/
theorem Course.isChain (h : Course s₀ threads m ts ends m') (a : Nat) :
    (live a m.heap.ledger.entries :: ts.filterMap (Turn.crossing a)).IsChain (· ≠ ·) := by
  induction h with
  | refl => exact .singleton _
  | @turn _ _ _ m _ _ _ _ p q _ _ _ hmove _ ih =>
    have hlive := hmove.live_eq a
    rcases hb : p.crossing a q with _ | b
    · have hstay : Turn.crossing a ⟨m, p, q⟩ = none := hb
      rw [hb, Option.getD_none] at hlive
      rwa [List.filterMap_cons_none hstay, ← hlive]
    · have hcross : Turn.crossing a ⟨m, p, q⟩ = some b := hb
      rw [hb, Option.getD_some] at hlive
      rw [hlive] at ih
      rw [List.filterMap_cons_some hcross, List.isChain_cons_cons]
      exact ⟨hmove.crossing_ne hb, ih⟩

end Alternation

section Writes

/-- Whatever memory holds, the step writes only within a block that is outstanding and that nobody
has live. -/
def Turn.Confined (t : Turn N (Logged S)) : Prop :=
  ∃ b ∈ outstanding t.machine.heap.source.log,
    (isLive (b.addr + 16)).run t.machine = .ok false t.machine ∧
    (∀ e ∈ t.machine.heap.ledger.entries, e.extent.Apart b) ∧
    ∀ memory, ∃ memory', t.before.step.run { t.machine with memory } =
        .ok t.after { t.machine with memory := memory' } ∧
      ∀ x, ¬ b.Covers x → memory'.get x = memory.get x

variable {s₀ : S} {m : Machine (Guarded N (Logged S))}

theorem Shared.confined {base n : Nat} (hN : 0 < N) (hs : Lawful s₀)
    (h : Shared (⟨s₀, []⟩ : Logged S) log threads m) (hi : threads[i]? = some p)
    (hp : p.holding = some (.bare base n))
    (hwrite : 0 < base → base + n + 2 * width ≤ Memory.top → ∀ memory, ∃ memory',
      p.step.run { m with memory } = .ok q { m with memory := memory' } ∧
      ∀ x, ¬ Block.Covers ⟨base, n + 2 * width⟩ x → memory'.get x = memory.get x) :
    Turn.Confined ⟨m, p, q⟩ := by
  have hs' := Logged.lawful hs
  obtain rfl := (Logged.of_reaches h.reaches).1
  obtain ⟨hb, hlive⟩ := h.of_bare hs' hi hp
  obtain ⟨hpos, -, htop⟩ := hs'.of_mem_outstanding h.reaches hb
  refine ⟨_, hb, ?_, fun e he => (hlive e he).2, hwrite hpos (by dsimp only at htop; omega)⟩
  rw [Guarded.isLive_of_sound hN h.sound, decide_eq_false]
  intro ha
  obtain ⟨e, he, hea⟩ := List.mem_map.mp ha
  refine (hlive e he).1 ?_
  dsimp only [Entry.extent, width] at hea ⊢
  omega

theorem Move.of_writes (h : Move E p q E') (hw : p.writes = true) :
    (∃ base n k, p = .reserved base n k ∧ q = .filled base n k) ∨
      ∃ a n, p = .struck a n ∧ q = .poisoned a := by
  cases h with
  | fill => exact .inl ⟨_, _, _, rfl, rfl⟩
  | poison => exact .inr ⟨_, _, rfl, rfl⟩
  | _ => cases hw

theorem Course.confined {ts : List (Turn N (Logged S))} {m' : Machine (Guarded N (Logged S))}
    (hN : 0 < N) (hs : Lawful s₀) (h : Course (⟨s₀, []⟩ : Logged S) threads m ts ends m') :
    ∀ t ∈ ts, t.before.writes = true → t.Confined := by
  induction h with
  | refl => simp
  | @turn _ _ _ _ _ _ _ _ p q hm hi _ hmove _ ih =>
    refine List.forall_mem_cons.mpr ⟨fun hw => ?_, ih⟩
    rcases hmove.of_writes hw with ⟨base, n, k, rfl, rfl⟩ | ⟨a, n, rfl, rfl⟩
    · refine hm.confined hN hs hi rfl fun _ htop memory => ⟨_, rfl, fun x hx => ?_⟩
      exact RedZone.get_fill_of_not_inZone htop fun hz => hx (Holding.covers_of_inZone hz)
    · refine hm.confined hN hs hi rfl fun hpos _ memory => ⟨_, rfl, fun x hx => ?_⟩
      refine RedZone.get_poison_of_outside ?_
      simp only [Block.Covers] at hx
      omega

end Writes

end HeapGuard.Contention
