import HeapGuard.Proofs.Contention.Interleaving
import HeapGuard.Proofs.Guarded.Balance

/-! # Races

Of several threads that give one live block back, the first to look for it in the ledger
strikes it, and the others find nothing. So the block goes back to its source once, in whatever
order the threads take their steps.
-/

namespace HeapGuard.Contention

open BlockSource (Lawful outstanding)
open Guarded (Matches unlogged recorded recorded_heap isLive)

section Race

variable {N : Nat} {S : Type} [BlockSource S] {s₀ : S} {threads ends : List Phase}
  {m m' : Machine (Guarded N S)} {ts : List (Turn N S)} {p q : Phase} {E E' : List Entry}
  {a i : Nat}

/-- The thread has struck the block at `a`; it is to give it back or has done so. -/
def Phase.Won (a : Nat) : Phase → Prop
  | struck b _ | poisoned b => b = a
  | done (.released (.ok ())) => True
  | _ => False

/-- The thread has not looked for the block at `a` yet, or has found none. -/
def Phase.Behind (a : Nat) : Phase → Prop
  | ready (.release b) => b = a
  | done (.released (.error _)) => True
  | _ => False

theorem Move.ne_ready (h : Move E p q E') (job : Job) : q ≠ .ready job := by
  cases h <;> nofun

theorem Move.won (h : Move E p q E') (hp : p.Won a) : q.Won a := by
  cases h <;> first | exact hp | trivial

theorem Move.behind (h : Move E p q E') (ha : live a E = false) (hp : p.Behind a) :
    q.Behind a := by
  cases h with
  | strike _ hperm =>
    subst hp
    simp [live_eq_of_perm hperm] at ha
  | miss => trivial
  | rest => exact hp
  | _ => cases hp

theorem Phase.eq_ready_of_crossing (h : p.crossing a q = some false) :
    p = .ready (.release a) := by
  unfold crossing at h
  split at h
  · simp at h
  · simp_all
  · cases h

theorem Phase.crossing_eq_none (hp : p ≠ .ready (.release a)) (hq : p.crossing a q ≠ some true) :
    p.crossing a q = none := by
  rcases hb : p.crossing a q with _ | _ | _
  · rfl
  · exact absurd (Phase.eq_ready_of_crossing hb) hp
  · exact absurd hb hq

structure Undecided (a : Nat) (racer : Nat → Prop) (threads : List Phase) (E : List Entry) :
    Prop where
  isLive : live a E = true
  waits : ∀ i, racer i → threads[i]? = some (.ready (.release a))

structure Decided (a : Nat) (racer : Nat → Prop) (threads : List Phase) (E : List Entry) :
    Prop where
  notLive : live a E = false
  winner : ∃ w, racer w ∧ (∃ p, threads[w]? = some p ∧ p.Won a) ∧
    ∀ i, racer i → i ≠ w → ∃ p, threads[i]? = some p ∧ p.Behind a

/-- Threads race for the block at `a`; no other thread is about to release it. -/
structure Racing (a : Nat) (racer : Nat → Prop) (threads : List Phase) (E : List Entry) : Prop where
  of_waiting : ∀ i, threads[i]? = some (.ready (.release a)) → racer i
  standing : Undecided a racer threads E ∨ Decided a racer threads E

theorem getElem?_set_self_of (hi : threads[i]? = some p) : (threads.set i q)[i]? = some q :=
  List.getElem?_set_self (List.getElem?_eq_some_iff.mp hi).1

section Turn

variable {racer : Nat → Prop}

theorem Undecided.turn (h : Undecided a racer threads E) (hi : threads[i]? = some p)
    (hmove : Move E p q E') (hp : p ≠ .ready (.release a)) (hq : p.crossing a q ≠ some true) :
    Undecided a racer (threads.set i q) E' where
  isLive := by
    rw [hmove.live_eq a, Phase.crossing_eq_none hp hq]
    exact h.isLive
  waits j hj := by
    have hji : i ≠ j := by
      rintro rfl
      exact hp (Option.some.inj (hi.symm.trans (h.waits i hj)))
    rw [List.getElem?_set_ne hji]
    exact h.waits j hj

theorem Undecided.decide (h : Undecided a racer threads E)
    (hi : threads[i]? = some (.ready (.release a))) (hr : racer i)
    (hmove : Move E (.ready (.release a)) q E') : Decided a racer (threads.set i q) E' := by
  cases hmove with
  | miss hE => exact absurd (of_decide_eq_true h.isLive) hE
  | strike hE hperm =>
    refine ⟨by simpa [live] using hE, i, hr, ⟨_, getElem?_set_self_of hi, rfl⟩, ?_⟩
    intro j hj hji
    refine ⟨.ready (.release _), ?_, rfl⟩
    rw [List.getElem?_set_ne hji.symm]
    exact h.waits j hj

theorem Decided.turn (h : Decided a racer threads E) (hi : threads[i]? = some p)
    (hmove : Move E p q E') (hq : p.crossing a q ≠ some true) :
    Decided a racer (threads.set i q) E' := by
  obtain ⟨w, hw, ⟨r, hr, hwon⟩, hbehind⟩ := h.winner
  -- a property that the step keeps for the thread that takes it holds of that place afterwards
  have keep {j : Nat} {P : Phase → Prop} (hP : P p → P q) :
      (∃ r, threads[j]? = some r ∧ P r) → ∃ r, (threads.set i q)[j]? = some r ∧ P r := by
    rintro ⟨r, hr, hPr⟩
    by_cases hij : i = j
    · subst hij
      obtain rfl : p = r := Option.some.inj (hi.symm.trans hr)
      exact ⟨q, getElem?_set_self_of hi, hP hPr⟩
    · exact ⟨r, (List.getElem?_set_ne hij).trans hr, hPr⟩
  refine ⟨?_, w, hw, keep hmove.won ⟨r, hr, hwon⟩, fun j hj hjw => ?_⟩
  · rw [hmove.live_eq a, h.notLive]
    rcases hb : p.crossing a q with _ | _ | _
    · rfl
    · rfl
    · exact absurd hb hq
  · exact keep (hmove.behind h.notLive) (hbehind j hj hjw)

theorem Racing.turn (h : Racing a racer threads E) (hi : threads[i]? = some p)
    (hmove : Move E p q E') (hq : p.crossing a q ≠ some true) :
    Racing a racer (threads.set i q) E' where
  of_waiting j hj := by
    by_cases hij : i = j
    · rw [← hij, getElem?_set_self_of hi] at hj
      exact absurd (Option.some.inj hj) (hmove.ne_ready _)
    · rw [List.getElem?_set_ne hij] at hj
      exact h.of_waiting j hj
  standing := by
    rcases h.standing with hopen | hdecided
    · by_cases hp : p = .ready (.release a)
      · subst hp
        exact .inr (hopen.decide hi (h.of_waiting i hi) hmove)
      · exact .inl (hopen.turn hi hmove hp hq)
    · exact .inr (hdecided.turn hi hmove hq)

end Turn

theorem Course.racing {racer : Nat → Prop} (h : Course s₀ threads m ts ends m')
    (hr : Racing a racer threads m.heap.ledger.entries)
    (hts : ∀ t ∈ ts, t.crossing a ≠ some true) : Racing a racer ends m'.heap.ledger.entries := by
  induction h with
  | refl => exact hr
  | turn _ hi _ hmove _ ih =>
    obtain ⟨ht, hts⟩ := List.forall_mem_cons.mp hts
    exact ih (hr.turn hi hmove ht) hts

/-- Of the threads that are about to release the block at `a`, at most one does, and one does if all
are done. -/
structure OneWinner (a : Nat) (threads ends : List Phase) : Prop where
  at_most_one : ∀ i j : Nat, threads[i]? = some (.ready (.release a)) →
    threads[j]? = some (.ready (.release a)) → ends[i]? = some (.done (.released (.ok ()))) →
    ends[j]? = some (.done (.released (.ok ()))) → i = j
  at_least_one : (∃ i : Nat, threads[i]? = some (.ready (.release a))) →
    (∀ i : Nat, threads[i]? = some (.ready (.release a)) → ∃ r, ends[i]? = some (.done r)) →
    ∃ i : Nat, threads[i]? = some (.ready (.release a)) ∧
      ends[i]? = some (.done (.released (.ok ())))

theorem Racing.oneWinner
    (h : Racing a (fun i : Nat => threads[i]? = some (.ready (.release a))) ends E) :
    OneWinner a threads ends := by
  rcases h.standing with ⟨-, hwait⟩ | ⟨-, w, hw, ⟨p, hp, hwon⟩, hbehind⟩
  · constructor
    · intro i j hi hj hei hej
      cases (hwait i hi).symm.trans hei
    · rintro ⟨i, hi⟩ hdone
      obtain ⟨r, hr⟩ := hdone i hi
      cases (hwait i hi).symm.trans hr
  · have huniq : ∀ i, threads[i]? = some (.ready (.release a)) →
        ends[i]? = some (.done (.released (.ok ()))) → i = w := by
      intro i hi hei
      by_contra hne
      obtain ⟨r, hr, hb⟩ := hbehind i hi hne
      obtain rfl := Option.some.inj (hr.symm.trans hei)
      exact hb
    constructor
    · intro i j hi hj hei hej
      rw [huniq i hi hei, huniq j hj hej]
    · rintro - hdone
      obtain ⟨r, hr⟩ := hdone w hw
      obtain rfl := Option.some.inj (hp.symm.trans hr)
      refine ⟨w, hw, ?_⟩
      rw [hp]
      match r, hwon with
      | .released (.ok ()), _ => rfl

end Race

variable {N : Nat} {S : Type} [BlockSource S] {s₀ : S}

theorem Phase.step_matches (p : Phase) : Matches (N := N) (S := S) p.step p.step := by
  cases p with
  | ready job =>
    cases job with
    | alloc n k =>
      unfold step
      dsimp only
      split
      · exact .pure _
      · refine (Matches.reserve _ k).bind fun block => ?_
        cases block <;> exact .pure _
    | release a =>
      refine (Matches.strike a).bind fun r => ?_
      cases r <;> exact .pure _
  | reserved base n k => exact (Matches.modifyMemory _).bind fun _ => .pure _
  | filled base n k =>
    refine (Matches.enroll _).bind fun r => ?_
    cases r <;> exact .pure _
  | refused base => exact (Matches.giveBack base).bind fun _ => .pure _
  | struck a n => exact (Matches.modifyMemory _).bind fun _ => .pure _
  | poisoned a => exact (Matches.giveBack _).bind fun _ => .pure _
  | done r => exact .pure _

theorem run_matches (threads : List Phase) (schedule : List Nat) :
    Matches (N := N) (S := S) (run threads schedule) (run threads schedule) := by
  induction schedule generalizing threads with
  | nil => exact .pure _
  | cons i schedule ih =>
    rcases hi : threads[i]? with _ | p
    · rw [run_cons_of_absent hi, run_cons_of_absent hi]
      exact ih threads
    · rw [run_cons hi, run_cons hi]
      exact p.step_matches.bind fun q => ih _

/-- What holds of the steps that threads take by a schedule, and of the machine after them. -/
structure Orderly (start : List Phase) (m₀ : Machine (Guarded N (Logged S))) (schedule : List Nat)
    (ends : List Phase) (m : Machine (Guarded N (Logged S))) : Prop where
  /-- Each address is entered in the ledger first, then struck, then entered again. -/
  alternate : ∀ a,
    (false :: (turns start m₀ schedule).filterMap (Turn.crossing a)).IsChain (· ≠ ·)
  confined : ∀ t ∈ turns start m₀ schedule, t.before.writes = true → t.Confined
  release_outstanding : ∀ later a earlier, m.heap.source.log = later ++ .release a :: earlier →
    a ∈ (outstanding earlier).map Block.addr
  alloc_between : ∀ later a mid earlier,
    m.heap.source.log = later ++ .release a :: (mid ++ .release a :: earlier) →
      ∃ bytes kind, .alloc bytes kind (some a) ∈ mid
  /-- Threads race for a block that is live now and whose address is not entered again. -/
  oneWinner : ∀ a more, (isLive a).run m = .ok true m →
    (∀ t ∈ turns ends m more, t.crossing a ≠ some true) →
      ∃ ends' m', (run ends more).run m = .ok ends' m' ∧ OneWinner a ends ends'

/-- Any number of threads may share a heap. Whatever their jobs and however their steps are
interleaved, none of them halts, and recording the calls to the source changes nothing. -/
theorem run_orderly {m₀ : Machine (Guarded N S)} (hN : 0 < N) (hs : Lawful s₀)
    (h₀ : m₀.heap = .new N s₀) (jobs : List Job) (schedule : List Nat) :
    ∃ ends m, (run (jobs.map .ready) schedule).run (recorded m₀) = .ok ends m ∧
      (run (jobs.map .ready) schedule).run m₀ = .ok ends (unlogged m) ∧
      Orderly (jobs.map .ready) (recorded m₀) schedule ends m := by
  have hs' := Logged.lawful hs
  have hr := recorded_heap h₀
  obtain ⟨ends, m, log, hrun, h, hcourse⟩ := (Shared.new hr jobs).course hN hs' schedule
  have hreach := (Logged.of_reaches h.reaches).2
  obtain rfl := (Logged.of_reaches h.reaches).1
  refine ⟨ends, m, hrun, ?_, ?_, hcourse.confined hN hs, ?_, ?_, ?_⟩
  · have hbare := run_matches (jobs.map .ready) schedule (recorded m₀)
    rwa [hrun] at hbare
  · intro a
    have hchain := hcourse.isChain a
    have hempty : live a (recorded m₀).heap.ledger.entries = false := by
      rw [hr, Guarded.new, Ledger.entries_empty]
      rfl
    rwa [hempty] at hchain
  · intro later a earlier hlog
    rw [hlog] at hreach
    exact hreach.mem_outstanding_of_release
  · intro later a mid earlier hlog
    rw [hlog] at hreach
    exact hs.exists_alloc_between hreach
  · intro a more hlive hmore
    obtain ⟨ends', m', -, hrun', -, hcourse'⟩ := h.course hN hs' more
    rw [Guarded.isLive_of_sound hN h.sound] at hlive
    have ha : live a m.heap.ledger.entries = true := (EStateM.Result.ok.inj hlive).1
    have hstart : Racing a (fun i : Nat => ends[i]? = some (.ready (.release a))) ends
        m.heap.ledger.entries := ⟨fun _ hi => hi, .inl ⟨ha, fun _ hi => hi⟩⟩
    exact ⟨ends', m', hrun', (hcourse'.racing hstart hmore).oneWinner⟩

/-- Two threads race to give back the block that the first one gets, and the last one may get it
again. -/
def rivals : List Job :=
  [.alloc 3 .buffer, .release (Arena.base + 16), .release (Arena.base + 16), .alloc 3 .object]

def begun : List Phase × Machine (Guarded 1 (Logged Arena)) :=
  match (run (rivals.map .ready) [0, 0, 0]).run (recorded (Guarded.onPage 1)) with
  | .ok ends m => (ends, m)
  | .error _ m => ([], m)

theorem run_orderly_overtaken :
    (turns (rivals.map .ready) (recorded (Guarded.onPage 1)) [0, 0, 0, 2, 1, 2, 2, 3, 3, 3]).filterMap
        (Turn.crossing (Arena.base + 16)) = [true, false, true] ∧
      (isLive (Arena.base + 16)).run begun.2 = .ok true begun.2 ∧
      ∃ ends' m', (run begun.1 [2, 1, 2, 2]).run begun.2 = .ok ends' m' ∧
        OneWinner (Arena.base + 16) begun.1 ends' := by
  have h₀ : (Guarded.onPage 1).heap = .new 1 .page := rfl
  obtain ⟨ends, m, hrun, -, h⟩ :=
    run_orderly (by decide) Arena.lawful_page h₀ rivals [0, 0, 0]
  have hbegun : begun = (ends, m) := by rw [begun, hrun]
  obtain rfl : begun.1 = ends := congrArg Prod.fst hbegun
  obtain rfl : begun.2 = m := congrArg Prod.snd hbegun
  exact ⟨by decide, rfl, h.oneWinner _ _ rfl (by decide)⟩

end HeapGuard.Contention
