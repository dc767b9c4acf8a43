import HeapGuard.Guarded
import HeapGuard.Proofs.Machine

/-! # Runs of the operations of the guarded heap

What each operation answers and leaves behind, by the answers of the ledger, of the check
of the zones and of the source. Later proofs use these equations and do not open the
operations again.
-/

namespace HeapGuard.Guarded

open RedZone (width)

variable {N : Nat} {S : Type} {m : Machine (Guarded N S)}

section Release

variable {a : Nat} {e : Entry}

theorem strike_of_trap {cause : Trap} (h : m.heap.ledger.lookup a = .error cause) :
    (strike a).run m = .error (.trap cause) m := by
  simp [strike, h]

theorem strike_of_absent (h : m.heap.ledger.lookup a = .ok none) :
    (strike a).run m = .ok (.error (.unknown a)) m := by
  simp [strike, h]

theorem strike_of_damage {d : RedZone.Damage} (h : m.heap.ledger.lookup a = .ok (some e))
    (hd : RedZone.check m.memory (a - width) e.size = some d) :
    (strike a).run m = .ok (.error (.damaged a e.size d)) m := by
  simp [strike, h, hd]

theorem strike_of_intact {e' : Entry} {c : Ledger.Change N}
    (h : m.heap.ledger.lookup a = .ok (some e))
    (hd : RedZone.check m.memory (a - width) e.size = none)
    (hc : m.heap.ledger.striking a = .ok (some (e', c))) :
    (strike a).run m =
      .ok (.ok e.size) { m with heap := { m.heap with ledger := m.heap.ledger.apply c } } := by
  simp [strike, h, hd, hc, amend]

variable [BlockSource S]

theorem tryRelease_of_trap {cause : Trap} (h : m.heap.ledger.lookup a = .error cause) :
    (tryRelease a).run m = .error (.trap cause) m := by
  simp [tryRelease, strike_of_trap h]

theorem tryRelease_of_absent (h : m.heap.ledger.lookup a = .ok none) :
    (tryRelease a).run m = .ok (.error (.unknown a)) m := by
  simp [tryRelease, strike_of_absent h]

theorem tryRelease_of_damage {d : RedZone.Damage} (h : m.heap.ledger.lookup a = .ok (some e))
    (hd : RedZone.check m.memory (a - width) e.size = some d) :
    (tryRelease a).run m = .ok (.error (.damaged a e.size d)) m := by
  simp [tryRelease, strike_of_damage h hd]

theorem tryRelease_of_intact {e' : Entry} {c : Ledger.Change N}
    (h : m.heap.ledger.lookup a = .ok (some e))
    (hd : RedZone.check m.memory (a - width) e.size = none)
    (hc : m.heap.ledger.striking a = .ok (some (e', c))) :
    (tryRelease a).run m =
      let p := BlockSource.release m.heap.source (RedZone.poison m.memory a e.size) (a - width)
      .ok (.ok ()) { m with memory := p.2, heap := ⟨p.1, m.heap.ledger.apply c⟩ } := by
  simp [tryRelease, strike_of_intact h hd hc, giveBack]

theorem release_zero : (release 0).run m = .ok () m := rfl

theorem release_of_ok {m' : Machine (Guarded N S)} (ha : a ≠ 0)
    (h : (tryRelease a).run m = .ok (.ok ()) m') : (release a).run m = .ok () m' := by
  simp [release, ha, h]

/-- A refused block ends the run with a report and changes nothing else. -/
theorem release_of_fault {fault : Fault} (ha : a ≠ 0)
    (h : (tryRelease a).run m = .ok (.error fault) m) :
    (release a).run m = (Action.die (.fault fault) : Action (Guarded N S) Unit).run m := by
  simp [release, ha, h]

theorem release_of_halt {halt : Halt} {m' : Machine (Guarded N S)} (ha : a ≠ 0)
    (h : (tryRelease a).run m = .error halt m') : (release a).run m = .error halt m' := by
  simp [release, ha, h]

omit [BlockSource S] in
theorem isLive_of_lookup {r : Option Entry} (h : m.heap.ledger.lookup a = .ok r) :
    (isLive a).run m = .ok r.isSome m := by
  simp [isLive, h]

end Release

theorem reportLeaks_of_none (h : m.heap.ledger.live = 0) : reportLeaks.run m = .ok 0 m := by
  simp [reportLeaks, h]

theorem reportLeaks_of_some (h : 0 < m.heap.ledger.live) :
    reportLeaks.run m = .ok m.heap.ledger.live
      { m with
        err := m.err.writeAll (Report.leaks m.heap.ledger.entries m.heap.ledger.live) } := by
  simp [reportLeaks, h]

theorem exists_run_reportLeaks (m : Machine (Guarded N S)) :
    ∃ err, reportLeaks.run m = .ok m.heap.ledger.live { m with err } := by
  rcases Nat.eq_zero_or_pos m.heap.ledger.live with h | h
  · exact ⟨m.err, by rw [h, reportLeaks_of_none h]⟩
  · exact ⟨_, reportLeaks_of_some h⟩

section Alloc

variable [BlockSource S] {bytes base : Nat} {kind : Kind} {source : S} {memory : Memory}

theorem allocZeroed_of_huge (h : Memory.top ≤ bytes + 2 * width) :
    (allocZeroed bytes kind).run m = .ok none m := by
  simp [allocZeroed, h]

theorem allocZeroed_of_refusal (hb : bytes + 2 * width < Memory.top)
    (h : BlockSource.alloc m.heap.source m.memory (bytes + 2 * width) kind =
      (none, source, memory)) :
    (allocZeroed bytes kind).run m = .ok none
      { m with memory, heap := { m.heap with source } } := by
  simp [allocZeroed, Nat.not_le.mpr hb, reserve, h]

theorem allocZeroed_of_full (hb : bytes + 2 * width < Memory.top)
    (h : BlockSource.alloc m.heap.source m.memory (bytes + 2 * width) kind =
      (some base, source, memory))
    (hc : m.heap.ledger.entering ⟨base + width, bytes, kind⟩ = .ok none) :
    (allocZeroed bytes kind).run m =
      let p := BlockSource.release source (RedZone.fill memory base bytes) base
      .ok none { m with memory := p.2, heap := { m.heap with source := p.1 } } := by
  simp [allocZeroed, Nat.not_le.mpr hb, reserve, h, enroll, hc, giveBack]

theorem allocZeroed_of_room {c : Ledger.Change N} (hb : bytes + 2 * width < Memory.top)
    (h : BlockSource.alloc m.heap.source m.memory (bytes + 2 * width) kind =
      (some base, source, memory))
    (hc : m.heap.ledger.entering ⟨base + width, bytes, kind⟩ = .ok (some c)) :
    (allocZeroed bytes kind).run m = .ok (some (base + width))
      { m with
        memory := RedZone.fill memory base bytes
        heap := ⟨source, m.heap.ledger.apply c⟩ } := by
  simp [allocZeroed, Nat.not_le.mpr hb, reserve, h, enroll, hc, amend]

theorem allocZeroed_of_trap {cause : Trap} (hb : bytes + 2 * width < Memory.top)
    (h : BlockSource.alloc m.heap.source m.memory (bytes + 2 * width) kind =
      (some base, source, memory))
    (hc : m.heap.ledger.entering ⟨base + width, bytes, kind⟩ = .error cause) :
    (allocZeroed bytes kind).run m = .error (.trap cause)
      { m with
        memory := RedZone.fill memory base bytes
        heap := { m.heap with source } } := by
  simp [allocZeroed, Nat.not_le.mpr hb, reserve, h, enroll, hc]

theorem alloc_of_none {m' : Machine (Guarded N S)}
    (h : (allocZeroed (max bytes 1) kind).run m = .ok none m') :
    (Heap.alloc bytes kind).run m = .ok (.error (.allocation bytes)) m' := by
  simp [Heap.alloc, Heap.allocZeroed, h]

theorem alloc_of_halt {halt : Halt} {m' : Machine (Guarded N S)}
    (h : (allocZeroed (max bytes 1) kind).run m = .error halt m') :
    (Heap.alloc bytes kind).run m = .error halt m' := by
  simp [Heap.alloc, Heap.allocZeroed, h]

theorem alloc_of_some {a : Nat} {m' : Machine (Guarded N S)}
    (h : (allocZeroed (max bytes 1) kind).run m = .ok (some a) m') :
    (Heap.alloc bytes kind).run m = .ok (.ok a) m' := by
  simp [Heap.alloc, Heap.allocZeroed, h]

theorem alloc_of_block {block : Option Nat} {m' : Machine (Guarded N S)}
    (h : (allocZeroed (max bytes 1) kind).run m = .ok block m') :
    (Heap.alloc bytes kind).run m = .ok (block.elim (.error (.allocation bytes)) .ok) m' := by
  cases block with
  | none => exact alloc_of_none h
  | some a => exact alloc_of_some h

end Alloc

end HeapGuard.Guarded
