import HeapGuard.Proofs.Checked
import HeapGuard.Proofs.Ledger.Bag

/-! # Where the ledger traps

A ledger without slots traps at every search, and an entry for which there is room traps if
it takes the sizes to `2 ^ 64`. Nothing else goes wrong in any run: in a ledger of at most
`2 ^ 64 - 1` slots every slot that is looked at exists, and no other sum or difference leaves
its range.
-/

namespace HeapGuard.Ledger

variable {N : Nat} {t : Ledger N} {a : Nat} {e : Entry} {c : Command} {cause : Trap}

/-- The command has no result on this ledger. -/
inductive Traps (t : Ledger N) : Command → Trap → Prop
  | slotless {c : Command} (hN : N = 0) (hc : c ≠ .entries) : Traps t c .remainderByZero
  | overflow {e : Entry} (hroom : t.live < N) (hover : 2 ^ 64 ≤ t.liveBytes + e.size) :
      Traps t (.insert e) .addOverflow

/-! ## Commands made of checked steps

Slots are plain numbers here. Each is tested against the table before it is looked at.
-/

def homeChecked (N a : Nat) : Except Mishap Nat :=
  Checked.rem (a * spread % 0x10000000000000000 / 0x100000000) N

def freeFromChecked (slots : Vector Slot N) : (k i : Nat) → Except Mishap (Option Nat)
  | 0, _ => .ok none
  | k + 1, i => do
    match ← Checked.get slots i with
    | .occupied _ => freeFromChecked slots k (← Checked.rem (← Checked.add i 1) N)
    | _ => return some i

def findFromChecked (slots : Vector Slot N) (a : Nat) :
    (k i : Nat) → Except Mishap (Option (Nat × Entry))
  | 0, _ => .ok none
  | k + 1, i => do
    match ← Checked.get slots i with
    | .occupied e =>
      if e.addr = a then return some (i, e)
      findFromChecked slots a k (← Checked.rem (← Checked.add i 1) N)
    | .vacated => findFromChecked slots a k (← Checked.rem (← Checked.add i 1) N)
    | .empty => return none

def findChecked (t : Ledger N) (a : Nat) : Except Mishap (Option (Nat × Entry)) := do
  findFromChecked t.slots a N (← homeChecked N a)

def insertChecked (t : Ledger N) (e : Entry) : Except Mishap (Bool × Ledger N) := do
  match ← freeFromChecked t.slots N (← homeChecked N e.addr) with
  | none => return (false, t)
  | some j =>
    let slots ← Checked.set t.slots j (.occupied e)
    let live ← Checked.add t.live 1
    let liveBytes ← Checked.add t.liveBytes e.size
    return (true, ⟨slots, live, liveBytes⟩)

def removeChecked (t : Ledger N) (a : Nat) : Except Mishap (Option Entry × Ledger N) := do
  match ← t.findChecked a with
  | none => return (none, t)
  | some (j, e) =>
    let slots ← Checked.set t.slots j .vacated
    let live ← Checked.sub t.live 1
    let liveBytes ← Checked.sub t.liveBytes e.size
    return (some e, ⟨slots, live, liveBytes⟩)

def performChecked (t : Ledger N) : Command → Except Mishap (Answer × Ledger N)
  | .insert e => do
    let (done, t) ← t.insertChecked e
    return (.inserted done, t)
  | .remove a => do
    let (e, t) ← t.removeChecked a
    return (.found e, t)
  | .lookup a => do
    let found ← t.findChecked a
    return (.found (found.map Prod.snd), t)
  | .entries => return (.entries t.entries, t)

section Checked

variable {slots : Vector Slot N}

theorem homeChecked_of_pos (hN : 0 < N) (a : Nat) :
    ∃ i : Fin N, home N a = .ok i ∧ homeChecked N a = .ok i.val :=
  ⟨_, dif_pos hN, Checked.rem_of_pos hN⟩

variable (hN : N < 2 ^ 64)
include hN

theorem next_checked (i : Fin N) :
    Checked.add i 1 = .ok (i + 1) ∧ Checked.rem (i + 1) N = .ok (next i).val :=
  ⟨Checked.add_of_lt (by omega), Checked.rem_of_pos i.pos⟩

theorem freeFromChecked_eq (k : Nat) (i : Fin N) :
    freeFromChecked slots k i = .ok ((freeFrom slots k i).map Fin.val) := by
  induction k generalizing i with
  | zero => rfl
  | succ k ih =>
    obtain ⟨hadd, hrem⟩ := next_checked hN i
    rw [freeFromChecked, freeFrom_succ, Checked.get_of_lt i.isLt, Checked.ok_bind]
    cases hs : slots.get i with
    | occupied e => simp [hadd, hrem, ih]
    | vacated => simp
    | empty => simp

theorem findFromChecked_eq (a k : Nat) (i : Fin N) :
    findFromChecked slots a k i =
      .ok ((findFrom slots a k i).map fun found => (found.1.val, found.2)) := by
  induction k generalizing i with
  | zero => rfl
  | succ k ih =>
    obtain ⟨hadd, hrem⟩ := next_checked hN i
    rw [findFromChecked, findFrom_succ, Checked.get_of_lt i.isLt, Checked.ok_bind]
    cases hs : slots.get i with
    | occupied e => by_cases ha : e.addr = a <;> simp [ha, hadd, hrem, ih]
    | vacated => simp [hadd, hrem, ih]
    | empty => simp

theorem findChecked_eq (t : Ledger N) (a : Nat) :
    t.findChecked a =
      ((t.find a).map (Option.map fun found => (found.1.val, found.2))).mapError .trap := by
  rcases Nat.eq_zero_or_pos N with rfl | hpos
  · rfl
  · obtain ⟨i, hi, hi'⟩ := homeChecked_of_pos hpos a
    simp [findChecked, find, hi, hi', findFromChecked_eq hN, Except.map, Except.mapError]

theorem Sound.insertChecked_eq (ht : t.Sound) (e : Entry) :
    t.insertChecked e = (t.insert e).mapError .trap := by
  rcases Nat.eq_zero_or_pos N with rfl | hpos
  · rfl
  · obtain ⟨i, hi, hi'⟩ := homeChecked_of_pos hpos e.addr
    cases hf : freeFrom t.slots N i with
    | none =>
      simp [insertChecked, insert, entering, hi, hi', freeFromChecked_eq hN, hf, Except.mapError]
    | some j =>
      obtain ⟨_, _, _, hfree, _⟩ := freeFrom_eq_some hf
      have hroom := length_entries_lt_iff.mpr ⟨j, hfree⟩
      have hlive : addChecked t.live 1 = .ok (t.live + 1) := by
        apply if_pos
        rw [ht.live_eq]
        omega
      cases hadd : addChecked t.liveBytes e.size <;>
        simp [insertChecked, insert, entering, hi, hi', freeFromChecked_eq hN, hf, hlive,
          Checked.set_of_lt j.isLt, Checked.add, hadd, Except.mapError, apply]

theorem removeChecked_eq (t : Ledger N) (a : Nat) :
    t.removeChecked a = (t.remove a).mapError .trap := by
  rw [removeChecked, findChecked_eq hN]
  cases hf : t.find a with
  | error cause => simp [remove, striking, hf, Except.map, Except.mapError]
  | ok found =>
    rcases found with _ | ⟨j, e⟩
    · simp [remove, striking, hf, Except.map, Except.mapError]
    · cases hlive : subChecked t.live 1 <;> cases hbytes : subChecked t.liveBytes e.size <;>
        simp [remove, striking, hf, hlive, hbytes, Checked.set_of_lt j.isLt, Checked.sub,
          Except.map, Except.mapError, apply]

/-- Checked step by step, a command ends as it does without the tests. -/
theorem Sound.performChecked_eq (ht : t.Sound) (c : Command) :
    t.performChecked c = (t.perform c).mapError .trap := by
  cases c with
  | insert e =>
    rw [performChecked, ht.insertChecked_eq hN]
    cases h : t.insert e <;> simp [Ledger.perform, h, Except.mapError]
  | remove a =>
    rw [performChecked, removeChecked_eq hN]
    cases h : t.remove a <;> simp [Ledger.perform, h, Except.mapError]
  | lookup a =>
    rw [performChecked, findChecked_eq hN]
    cases h : t.find a with
    | error cause => simp [Ledger.perform, lookup, h, Except.map, Except.mapError]
    | ok found => cases found <;> simp [Ledger.perform, lookup, h, Except.map, Except.mapError]
  | entries => rfl

end Checked

/-! ## Traps -/

theorem Traps.unique {cause' : Trap} (h : t.Traps c cause) (h' : t.Traps c cause') :
    cause = cause' := by
  cases h with
  | slotless hN =>
    cases h' with
    | slotless => rfl
    | overflow hroom => omega
  | overflow hroom =>
    cases h' with
    | slotless hN => omega
    | overflow => rfl

theorem perform_slotless {t : Ledger 0} (hc : c ≠ .entries) :
    t.perform c = .error .remainderByZero := by
  cases c with
  | entries => exact absurd rfl hc
  | _ => rfl

theorem entering_of_overflow (hN : 0 < N) (hroom : t.entries.length < N)
    (hover : 2 ^ 64 ≤ t.liveBytes + e.size) : t.entering e = .error .addOverflow := by
  obtain ⟨i, hi⟩ := home_eq_ok hN e.addr
  obtain ⟨j, hf⟩ := exists_freeFrom_eq_some hroom i
  have hadd : addChecked t.liveBytes e.size = .error .addOverflow := if_neg (by omega)
  simp [entering, hi, hf, hadd]

section Past

variable {past : Past}

theorem Sound.perform_cases (ht : t.Sound) (hb : (t.entries : Multiset Entry) = past.bag)
    (c : Command) :
    (∃ cause, t.Traps c cause ∧ t.perform c = .error cause) ∨
      (∀ cause, ¬ t.Traps c cause) ∧ ∃ answer t', t.perform c = .ok (answer, t') ∧ t'.Sound ∧
        (t'.entries : Multiset Entry) = Past.bag ((c, answer) :: past) := by
  by_cases htrap : ∃ cause, t.Traps c cause
  · left
    obtain ⟨cause, h⟩ := htrap
    refine ⟨cause, h, ?_⟩
    cases h with
    | slotless hN hc =>
      subst hN
      exact perform_slotless hc
    | @overflow e hroom hover =>
      have hN : 0 < N := Nat.zero_lt_of_lt hroom
      rw [ht.live_eq] at hroom
      simp [Ledger.perform, insert, entering_of_overflow hN hroom hover]
  · right
    refine ⟨fun cause h => htrap ⟨cause, h⟩, ?_⟩
    rcases Nat.eq_zero_or_pos N with rfl | hN
    · obtain rfl : c = .entries := by
        by_contra hc
        exact htrap ⟨_, .slotless rfl hc⟩
      exact ⟨.entries t.entries, t, rfl, ht, hb⟩
    · have hfit : Fits N past.bag c := by
        cases c with
        | insert e =>
          intro hroom
          rw [← hb] at hroom ⊢
          rw [bytes_coe, ← ht.liveBytes_eq]
          by_contra hover
          exact htrap ⟨_, .overflow (ht.live_eq ▸ hroom) (Nat.le_of_not_lt hover)⟩
        | _ => trivial
      obtain ⟨answer, t', hc, ht', hb', -⟩ := ht.perform hN hb c hfit
      exact ⟨answer, t', hc, ht', hb'⟩

theorem Sound.perform_eq_error_iff (ht : t.Sound) (hb : (t.entries : Multiset Entry) = past.bag) :
    t.perform c = .error cause ↔ t.Traps c cause := by
  rcases ht.perform_cases hb c with ⟨cause', h, hrun⟩ | ⟨hno, _, _, hrun, -⟩
  · rw [hrun]
    constructor
    · rintro ⟨⟩
      exact h
    · intro h'
      rw [h.unique h']
  · rw [hrun]
    exact iff_of_false (fun h => by cases h) (hno cause)

end Past

section Play

variable {cs : List Command} {past : Past}

theorem play_cons_of_ok (h : play N cs = .ok (past, t)) :
    play N (c :: cs) = (t.perform c).map fun r => ((c, r.1) :: past, r.2) := by
  rw [play, h, Checked.ok_bind]
  dsimp only
  cases t.perform c <;> rfl

theorem play_cons_of_error (h : play N cs = .error cause) : play N (c :: cs) = .error cause := by
  rw [play, h, Checked.error_bind]

theorem sound_of_play (h : play N cs = .ok (past, t)) :
    t.Sound ∧ (t.entries : Multiset Entry) = past.bag := by
  induction cs generalizing past t with
  | nil =>
    cases h
    refine ⟨sound_empty N, ?_⟩
    rw [entries_empty]
    rfl
  | cons c cs ih =>
    rcases hcs : play N cs with cause | ⟨past₀, t₀⟩
    · rw [play_cons_of_error hcs] at h
      cases h
    · obtain ⟨ht, hb⟩ := ih hcs
      rw [play_cons_of_ok hcs] at h
      rcases ht.perform_cases hb c with ⟨_, -, hrun⟩ | ⟨-, answer, t', hrun, ht', hb'⟩
      · rw [hrun] at h
        cases h
      · rw [hrun] at h
        cases h
        exact ⟨ht', hb'⟩

/-- A run traps at the first of its commands that traps. -/
theorem play_eq_error_iff : play N cs = .error cause ↔
    ∃ later c earlier past t, cs = later ++ c :: earlier ∧ play N earlier = .ok (past, t) ∧
      t.Traps c cause := by
  constructor
  · intro h
    induction cs with
    | nil => cases h
    | cons c cs ih =>
      rcases hcs : play N cs with cause' | ⟨past, t⟩
      · rw [play_cons_of_error hcs] at h
        cases h
        obtain ⟨later, c', earlier, past, t, rfl, hplay, htrap⟩ := ih hcs
        exact ⟨c :: later, c', earlier, past, t, rfl, hplay, htrap⟩
      · obtain ⟨ht, hb⟩ := sound_of_play hcs
        rw [play_cons_of_ok hcs] at h
        refine ⟨[], c, cs, past, t, rfl, hcs, (ht.perform_eq_error_iff hb).mp ?_⟩
        cases hrun : t.perform c with
        | error cause' =>
          rw [hrun] at h
          cases h
          rfl
        | ok r =>
          rw [hrun] at h
          cases h
  · rintro ⟨later, c, earlier, past, t, rfl, hplay, htrap⟩
    obtain ⟨ht, hb⟩ := sound_of_play hplay
    induction later with
    | nil =>
      rw [List.nil_append, play_cons_of_ok hplay, (ht.perform_eq_error_iff hb).mpr htrap]
      rfl
    | cons c' later ih => exact play_cons_of_error ih

end Play

/-- Commands without slots trap, and so does an entry with room whose size takes the total to
`2 ^ 64`. No other command of any run does, not even if every slot, sum and difference is tested,
and there are never more entries than slots. -/
theorem play_traps_exactly (N : Nat) (cs : List Command) :
    (∀ past t, play N cs = .ok (past, t) →
      t.live ≤ N ∧ (∀ c cause, t.perform c = .error cause ↔ t.Traps c cause) ∧
        (N < 2 ^ 64 → ∀ c, t.performChecked c = (t.perform c).mapError .trap)) ∧
    ∀ cause, play N cs = .error cause ↔
      ∃ later c earlier past t, cs = later ++ c :: earlier ∧ play N earlier = .ok (past, t) ∧
        t.Traps c cause := by
  constructor
  · intro past t h
    obtain ⟨ht, hb⟩ := sound_of_play h
    refine ⟨?_, fun c cause => ht.perform_eq_error_iff hb, fun hN => ht.performChecked_eq hN⟩
    rw [ht.live_eq]
    exact length_entries_le t
  · intro cause
    exact play_eq_error_iff

/-- Two entries whose sizes are too much together: without slots the first one traps, with two slots
the second one, and with one slot the second one is refused before its size is looked at. -/
theorem play_traps_exactly_last_slot :
    let cs : List Command := [.insert ⟨0x20, 1, .object⟩, .insert ⟨0x10, 2 ^ 64 - 1, .buffer⟩]
    play 0 cs = .error .remainderByZero ∧ play 2 cs = .error .addOverflow ∧
      ∃ past t, play 1 cs = .ok (past, t) ∧ t.live ≤ 1 ∧ past.bag = {⟨0x10, 2 ^ 64 - 1, .buffer⟩} := by
  intro cs
  refine ⟨?_, ?_, ?_⟩
  · rw [(play_traps_exactly 0 cs).2]
    exact ⟨[.insert ⟨0x20, 1, .object⟩], _, [], _, _, rfl, rfl, .slotless rfl (by simp)⟩
  · rw [(play_traps_exactly 2 cs).2]
    exact ⟨[], _, [.insert ⟨0x10, 2 ^ 64 - 1, .buffer⟩], _, _, rfl, rfl,
      .overflow (by decide) (by decide)⟩
  · exact ⟨_, _, rfl, ((play_traps_exactly 1 cs).1 _ _ rfl).1, rfl⟩

end HeapGuard.Ledger
