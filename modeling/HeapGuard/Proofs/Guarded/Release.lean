import HeapGuard.Proofs.Guarded.Answers
import HeapGuard.Proofs.Report
import HeapGuard.Proofs.Report.Reading

/-! # Releases for good and tried ones

A client may try to release a block and be told why that fails, or release it for good. Both
do the same to the heap and to memory. Where the one is told a fault, the other ends the run
with a report from which the fault can be read, and changes nothing.
-/

namespace HeapGuard

open BlockSource (Separate)
open RedZone (width)

namespace Guarded

variable {N : Nat} {S : Type} [BlockSource S]

/-- Releasing the address for good does what trying to release it does, and a fault that the latter
is told stands in the report with which the former ends the run. -/
structure Refines (m : Machine (Guarded N S)) (a : Nat) : Prop where
  null : a = 0 → (release a).run m = .ok () m
  accepted : ∀ m', (tryRelease a).run m = .ok (.ok ()) m' →
    (release a).run m = .ok () m' ∧ m'.err = m.err
  refused : a ≠ 0 → ∀ fault m', (tryRelease a).run m = .ok (.error fault) m' → m' = m ∧
    ∃ err, (release a).run m = .error .abort { m with err } ∧
      m.err.Hears err ((release a).told m) ∧
      Report.faultReader.whole ((release a).told m).flatten = some fault
  /-- Only without slots is there neither success nor a fault. -/
  halted : ∀ halt m', (tryRelease a).run m = .error halt m' → N = 0 ∧ m' = m ∧
    (a ≠ 0 → (release a).run m = .error halt m)

section Step

variable {s₀ : S} {log : List Arena.Event} {live : List Entry} {m : Machine (Guarded N S)} {a : Nat}

theorem Accounted.tryRelease_ends (hN : 0 < N) (hs : Separate s₀) (h : Accounted s₀ log live m)
    (ha : a < 2 ^ 64) :
    (∃ fault : Fault, fault.IsWord ∧ (tryRelease a).run m = .ok (.error fault) m) ∨
      a ≠ 0 ∧ ∃ memory heap, (tryRelease a).run m = .ok (.ok ()) { m with memory, heap } := by
  by_cases hmem : a ∈ live.map Entry.addr
  · obtain ⟨e, he, rfl⟩ := List.mem_map.mp hmem
    obtain ⟨hl, c, hc, -⟩ := h.lookup_of_mem hN hs he
    obtain ⟨hpos, htop⟩ := h.bounds hs he
    rcases hd : RedZone.check m.memory (e.addr - width) e.size with _ | d
    · right
      exact ⟨Nat.ne_zero_of_lt hpos, _, _, tryRelease_of_intact hl hd hc⟩
    · left
      refine ⟨.damaged e.addr e.size d, ⟨ha, ?_⟩, h.tryRelease_of_mem_damaged hN hs he hd⟩
      simp only [Memory.top, width] at htop
      omega
  · left
    exact ⟨.unknown a, ha, h.tryRelease_of_not_mem hN hmem⟩

theorem told_release_of_fault {fault : Fault} (ha : a ≠ 0)
    (h : (tryRelease a).run m = .ok (.error fault) m) :
    (release a).told m = (Fatal.fault fault).report := by
  apply Action.told_of_hears
  rw [Action.after_of_error ((release_of_fault ha h).trans (Action.run_die _ m))]
  exact m.err.hears_writeAll _

theorem refines_of_fault {fault : Fault} (hf : fault.IsWord)
    (h : (tryRelease a).run m = .ok (.error fault) m) : Refines m a := by
  constructor
  · rintro rfl
    exact release_zero
  · intro m' hok
    cases h.symm.trans hok
  · intro ha fault' m' hfault
    cases h.symm.trans hfault
    rw [told_release_of_fault ha h]
    exact ⟨rfl, _, (release_of_fault ha h).trans (Action.run_die _ m), m.err.hears_writeAll _,
      (Report.reads_fault hf []).whole_eq⟩
  · intro halt m' hhalt
    cases h.symm.trans hhalt

theorem refines_of_ok {memory : Memory} {heap : Guarded N S} (ha : a ≠ 0)
    (h : (tryRelease a).run m = .ok (.ok ()) { m with memory, heap }) : Refines m a := by
  constructor
  · intro ha'
    exact absurd ha' ha
  · intro m' hok
    cases h.symm.trans hok
    exact ⟨release_of_ok ha h, rfl⟩
  · intro _ fault m' hfault
    cases h.symm.trans hfault
  · intro halt m' hhalt
    cases h.symm.trans hhalt

theorem refines_slotless (m : Machine (Guarded 0 S)) (a : Nat) : Refines m a := by
  have h := tryRelease_of_trap (lookup_slotless m a)
  constructor
  · rintro rfl
    exact release_zero
  · intro m' hok
    cases h.symm.trans hok
  · intro _ fault m' hfault
    cases h.symm.trans hfault
  · intro halt m' hhalt
    cases h.symm.trans hhalt
    exact ⟨rfl, rfl, fun ha => release_of_halt ha h⟩

end Step

theorem Refines.fault_eq {N' : Nat} {S' : Type} [BlockSource S'] {m' : Machine (Guarded N' S')}
    {a b : Nat} {m : Machine (Guarded N S)} {fault fault' : Fault} (h : Refines m a)
    (h' : Refines m' b) (ha : a ≠ 0) (hb : b ≠ 0)
    (hrun : (tryRelease a).run m = .ok (.error fault) m)
    (hrun' : (tryRelease b).run m' = .ok (.error fault') m')
    (htold : ((release a).told m).flatten = ((release b).told m').flatten) : fault = fault' := by
  obtain ⟨-, _, -, -, hread⟩ := h.refused ha fault m hrun
  obtain ⟨-, _, -, -, hread'⟩ := h'.refused hb fault' m' hrun'
  rw [htold, hread'] at hread
  exact (Option.some.inj hread).symm

theorem play_refines {s₀ : S} {m₀ : Machine (Guarded N S)} {a : Nat} (hs : Separate s₀)
    (h₀ : m₀.heap = .new N s₀) (rs : List Request) (ha : a < 2 ^ 64) :
    Refines (play m₀ rs).2 a := by
  rcases Nat.eq_zero_or_pos N with rfl | hN
  · exact refines_slotless _ a
  · obtain ⟨log, h⟩ := exists_accounted hN hs h₀ rs
    rcases h.tryRelease_ends hN hs ha with ⟨fault, hf, hrun⟩ | ⟨hne, _, _, hrun⟩
    · exact refines_of_fault hf hrun
    · exact refines_of_ok hne hrun

/-- After any run, releasing an address for good does what trying to release it does, and no two
faults on any two heaps give the same report. -/
theorem play_release_refines {N' : Nat} {S' : Type} [BlockSource S'] {s₀ : S} {s₀' : S'}
    {m₀ : Machine (Guarded N S)} {m₀' : Machine (Guarded N' S')} (hs : Separate s₀)
    (h₀ : m₀.heap = .new N s₀) (hs' : Separate s₀') (h₀' : m₀'.heap = .new N' s₀')
    (rs rs' : List Request) {a b : Nat} (ha : a < 2 ^ 64) (hb : b < 2 ^ 64) :
    let m := (play m₀ rs).2
    let m' := (play m₀' rs').2
    Refines m a ∧ ∀ fault fault', a ≠ 0 → b ≠ 0 →
      (tryRelease a).run m = .ok (.error fault) m →
      (tryRelease b).run m' = .ok (.error fault') m' →
      fault ≠ fault' → ((release a).told m).flatten ≠ ((release b).told m').flatten := by
  intro m m'
  have h : Refines m a := play_refines hs h₀ rs ha
  have h' : Refines m' b := play_refines hs' h₀' rs' hb
  refine ⟨h, ?_⟩
  intro fault fault' ha₀ hb₀ hrun hrun' hne htold
  exact hne (h.fault_eq h' ha₀ hb₀ hrun hrun' htold)

theorem play_release_refines_overrun :
    let m := (play (onPage 2) byteBehind).2
    (∃ err, (release (Arena.base + 16)).run m = .error .abort { m with err }) ∧
      Report.faultReader.whole ((release (Arena.base + 16)).told m).flatten =
        some (.damaged (Arena.base + 16) 1 ⟨false, true⟩) ∧
      ((release (Arena.base + 16)).told m).flatten ≠
        ((release (Arena.base + 17)).told m).flatten := by
  intro m
  have hs : Separate (onPage 2).heap.source := Arena.lawful_page.separate
  obtain ⟨h, hne⟩ := play_release_refines hs rfl hs rfl byteBehind byteBehind (a := Arena.base + 16)
    (b := Arena.base + 17) (by decide) (by decide)
  obtain ⟨h', -⟩ := play_release_refines hs rfl hs rfl byteBehind byteBehind (a := Arena.base + 17)
    (b := Arena.base + 16) (by decide) (by decide)
  obtain ⟨m₁, hrun⟩ : ∃ m₁, (tryRelease (Arena.base + 16)).run m =
      .ok (.error (.damaged (Arena.base + 16) 1 ⟨false, true⟩)) m₁ :=
    Action.exists_run_of_answer (by decide +kernel)
  obtain ⟨m₂, hrun'⟩ : ∃ m₂, (tryRelease (Arena.base + 17)).run m =
      .ok (.error (.unknown (Arena.base + 17))) m₂ :=
    Action.exists_run_of_answer (by decide +kernel)
  obtain ⟨rfl, err, hrelease, -, hread⟩ := h.refused (by decide) _ _ hrun
  obtain ⟨rfl, -⟩ := h'.refused (by decide) _ _ hrun'
  exact ⟨⟨err, hrelease⟩, hread, hne _ _ (by decide) (by decide) hrun hrun' (by simp)⟩

end Guarded

end HeapGuard
