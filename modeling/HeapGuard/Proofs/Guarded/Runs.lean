import HeapGuard.Proofs.Guarded.Accounts
import HeapGuard.Proofs.Source.Arena

/-! # Runs of a guarded heap

A client asks for blocks, gives addresses back and writes to memory. The history of such
a run says which blocks are live. The accounts of the heap agree with it after any run;
if the client writes to live blocks only, all zones stay intact as well.
-/

namespace HeapGuard

open Arena (Event)
open BlockSource (Lawful Separate)
open RedZone (width InZone)
open scoped List

inductive Request where
  | alloc (bytes : Nat) (kind : Kind)
  | allocZeroed (bytes : Nat) (kind : Kind)
  | tryRelease (addr : Nat)
  | release (addr : Nat)
  | write (addr : Nat) (bytes : Bytes)

inductive Reply where
  | allocated (result : Except Failure Nat)
  | block (addr : Option Nat)
  | tried (result : Except Fault Unit)
  | done

namespace Request

/-- The blocks that are live after a request with this outcome. -/
def settle (live : List Entry) : Request → Except Halt Reply → List Entry
  | .alloc bytes kind, .ok (.allocated (.ok a)) => ⟨a, max bytes 1, kind⟩ :: live
  | .allocZeroed bytes kind, .ok (.block (some a)) => ⟨a, bytes, kind⟩ :: live
  | .tryRelease a, .ok (.tried (.ok ())) => live.filter (·.addr != a)
  | .release a, .ok _ => live.filter (·.addr != a)
  | _, _ => live

/-- Only live blocks are given back for good, and only their user bytes are written. -/
def Proper (live : List Entry) : Request → Prop
  | .release a => a ∈ live.map Entry.addr
  | .write a bs => ∃ e ∈ live, e.addr ≤ a ∧ a + bs.length ≤ e.addr + e.size
  | _ => True

instance (live : List Entry) (r : Request) : Decidable (r.Proper live) :=
  match r with
  | .alloc .. | .allocZeroed .. | .tryRelease _ => inferInstanceAs (Decidable True)
  | .release a => inferInstanceAs (Decidable (a ∈ live.map Entry.addr))
  | .write a bs =>
    inferInstanceAs (Decidable (∃ e ∈ live, e.addr ≤ a ∧ a + bs.length ≤ e.addr + e.size))

end Request

/-- Requests with their outcomes, the last one first. -/
abbrev History := List (Request × Except Halt Reply)

namespace History

def live : History → List Entry
  | [] => []
  | (r, outcome) :: past => r.settle (live past) outcome

def Proper : History → Prop
  | [] => True
  | (r, _) :: past => Proper past ∧ r.Proper (live past)

instance decidableProper : (past : History) → Decidable past.Proper
  | [] => inferInstanceAs (Decidable True)
  | (r, _) :: past =>
    have := decidableProper past
    inferInstanceAs (Decidable (Proper past ∧ r.Proper (live past)))

end History

namespace Guarded

variable {N : Nat} {S : Type} [BlockSource S]

def perform : Request → Action (Guarded N S) Reply
  | .alloc bytes kind => return .allocated (← Heap.alloc bytes kind)
  | .allocZeroed bytes kind => return .block (← allocZeroed bytes kind)
  | .tryRelease a => return .tried (← tryRelease a)
  | .release a => do
    release a
    return .done
  | .write a bs => do
    Action.modifyMemory (·.write a bs)
    return .done

/-- The outcome of a request, and the machine after it. What a request changed before it halted stays
changed, and other requests may follow. -/
def exec (m : Machine (Guarded N S)) (r : Request) : Except Halt Reply × Machine (Guarded N S) :=
  match (perform r).run m with
  | .ok reply m => (.ok reply, m)
  | .error halt m => (.error halt, m)

/-- Carry out requests from a machine on; the last request stands first. -/
def play (m₀ : Machine (Guarded N S)) : List Request → History × Machine (Guarded N S)
  | [] => ([], m₀)
  | r :: rs =>
    let (past, m) := play m₀ rs
    let (outcome, m) := exec m r
    ((r, outcome) :: past, m)

def onPage (N : Nat) : Machine (Guarded N Arena) := .start (.new N .page)

def Intact (live : List Entry) (m : Memory) : Prop :=
  ∀ e ∈ live, ∀ x, InZone (e.addr - width) e.size x → m.get x = RedZone.canary

section Exec

variable {m m' : Machine (Guarded N S)} {a : Nat}

theorem exec_alloc_of_none {bytes : Nat} {kind : Kind}
    (h : (allocZeroed (max bytes 1) kind).run m = .ok none m') :
    exec m (.alloc bytes kind) = (.ok (.allocated (.error (.allocation bytes))), m') := by
  simp [exec, perform, alloc_of_none h]

theorem exec_alloc_of_some {bytes : Nat} {kind : Kind}
    (h : (allocZeroed (max bytes 1) kind).run m = .ok (some a) m') :
    exec m (.alloc bytes kind) = (.ok (.allocated (.ok a)), m') := by
  simp [exec, perform, alloc_of_some h]

theorem exec_allocZeroed {bytes : Nat} {kind : Kind} {block : Option Nat}
    (h : (allocZeroed bytes kind).run m = .ok block m') :
    exec m (.allocZeroed bytes kind) = (.ok (.block block), m') := by
  simp [exec, perform, h]

theorem exec_tryRelease {r : Except Fault Unit} (h : (tryRelease a).run m = .ok r m') :
    exec m (.tryRelease a) = (.ok (.tried r), m') := by
  simp [exec, perform, h]

theorem exec_release_zero : exec m (.release 0) = (.ok .done, m) := by
  simp [exec, perform, release_zero]

theorem exec_release_of_ok (ha : a ≠ 0) (h : (tryRelease a).run m = .ok (.ok ()) m') :
    exec m (.release a) = (.ok .done, m') := by
  simp [exec, perform, release_of_ok ha h]

theorem exec_release_of_fault {fault : Fault} (ha : a ≠ 0)
    (h : (tryRelease a).run m = .ok (.error fault) m) :
    ∃ err, exec m (.release a) = (.error .abort, { m with err }) := by
  refine ⟨m.err.writeAll (Fatal.fault fault).report, ?_⟩
  simp [exec, perform, release_of_fault ha h, Action.die, Action.abort]

section Halt

variable {halt : Halt}

theorem exec_alloc_of_halt {bytes : Nat} {kind : Kind}
    (h : (allocZeroed (max bytes 1) kind).run m = .error halt m') :
    exec m (.alloc bytes kind) = (.error halt, m') := by
  simp [exec, perform, alloc_of_halt h]

theorem exec_allocZeroed_of_halt {bytes : Nat} {kind : Kind}
    (h : (allocZeroed bytes kind).run m = .error halt m') :
    exec m (.allocZeroed bytes kind) = (.error halt, m') := by
  simp [exec, perform, h]

theorem exec_tryRelease_of_halt (h : (tryRelease a).run m = .error halt m') :
    exec m (.tryRelease a) = (.error halt, m') := by
  simp [exec, perform, h]

theorem exec_release_of_halt (ha : a ≠ 0) (h : (tryRelease a).run m = .error halt m') :
    exec m (.release a) = (.error halt, m') := by
  simp [exec, perform, release_of_halt ha h]

end Halt

theorem exec_write {bs : Bytes} :
    exec m (.write a bs) = (.ok .done, { m with memory := m.memory.write a bs }) := rfl

end Exec

variable {s₀ : S} {log : List Event} {live : List Entry} {m : Machine (Guarded N S)}

theorem Intact.of_undisturbed {memory memory' : Memory} (h : Intact live memory)
    (hu : Undisturbed live memory memory') : Intact live memory' := by
  intro e he x hx
  have hc : e.extent.Covers x := by
    simp only [Block.Covers, Entry.extent, InZone] at hx ⊢
    omega
  rw [hu e he x hc]
  exact h e he x hx

theorem Intact.filter {memory : Memory} (h : Intact live memory) (p : Entry → Bool) :
    Intact (live.filter p) memory :=
  fun e he => h e (List.mem_filter.mp he).1

theorem Intact.cons {e : Entry} {memory : Memory} (h : Intact live memory)
    (he : Pristine e memory) : Intact (e :: live) memory :=
  List.forall_mem_cons.mpr ⟨he.zones, h⟩

namespace Accounted

section Step

variable (hN : 0 < N) (hs : Separate s₀) (h : Accounted s₀ log live m)
include hs h

theorem outside_of_inZone {d e : Entry} (hd : d ∈ live) (he : e ∈ live) {x : Nat}
    (hx : InZone (d.addr - width) d.size x) : x < e.addr ∨ e.addr + e.size ≤ x := by
  have hbd := (h.bounds hs hd).1
  have hbe := (h.bounds hs he).1
  simp only [InZone] at hx
  by_cases hde : d = e
  · subst hde
    omega
  · have hap := h.apart_of_ne hs hd he hde
    simp only [Block.Apart, Entry.extent] at hap
    omega

theorem intact_of_inside {e : Entry} (he : e ∈ live) {memory : Memory}
    (hz : Intact live m.memory)
    (hm : ∀ x, x < e.addr ∨ e.addr + e.size ≤ x → memory.get x = m.memory.get x) :
    Intact live memory := by
  intro d hd x hx
  rw [hm x (h.outside_of_inZone hs hd he hx)]
  exact hz d hd x hx

include hN

/-- The accounts agree with what a request is said to do, whatever its outcome, and no arithmetic
traps. -/
theorem exec_step (r : Request) :
    (∃ log', Accounted s₀ log' (r.settle live (exec m r).1) (exec m r).2) ∧
      ∀ cause, (exec m r).1 ≠ .error (.trap cause) := by
  cases r with
  | alloc bytes kind =>
    obtain ⟨_, _, _, _, hrun, hv, hacc⟩ := h.allocZeroed_served hN hs (max bytes 1) kind
    cases hv with
    | entered =>
      rw [exec_alloc_of_some hrun]
      exact ⟨⟨_, hacc⟩, nofun⟩
    | _ =>
      rw [exec_alloc_of_none hrun]
      exact ⟨⟨_, hacc⟩, nofun⟩
  | allocZeroed bytes kind =>
    obtain ⟨_, _, _, _, hrun, hv, hacc⟩ := h.allocZeroed_served hN hs bytes kind
    rw [exec_allocZeroed hrun]
    cases hv <;> exact ⟨⟨_, hacc⟩, nofun⟩
  | tryRelease a =>
    rcases h.tryRelease_cases hN hs a with ⟨_, hrun⟩ | ⟨_, _, _, _, _, log', hrun, _, hacc⟩
    · rw [exec_tryRelease hrun]
      exact ⟨⟨log, h⟩, nofun⟩
    · rw [exec_tryRelease hrun]
      exact ⟨⟨log', hacc⟩, nofun⟩
  | release a =>
    rcases Nat.eq_zero_or_pos a with rfl | ha
    · rw [exec_release_zero]
      -- the history strikes address zero here, at which no block is live
      have hkeep : live.filter (·.addr != 0) = live := by
        rw [List.filter_eq_self]
        intro e he
        have := (h.bounds hs he).1
        simpa using by omega
      exact ⟨⟨log, by rwa [Request.settle, hkeep]⟩, nofun⟩
    · rcases h.tryRelease_cases hN hs a with ⟨_, hrun⟩ | ⟨_, _, _, _, _, log', hrun, _, hacc⟩
      · obtain ⟨err, hex⟩ := exec_release_of_fault ha.ne' hrun
        rw [hex]
        exact ⟨⟨log, h.of_heap_eq rfl⟩, nofun⟩
      · rw [exec_release_of_ok ha.ne' hrun]
        exact ⟨⟨log', hacc⟩, nofun⟩
  | write a bs =>
    rw [exec_write]
    exact ⟨⟨log, h.of_heap_eq rfl⟩, nofun⟩

theorem tryRelease_ok_iff {e : Entry} (he : e ∈ live) :
    (∃ m', (tryRelease e.addr).run m = .ok (.ok ()) m') ↔ Intact [e] m.memory := by
  constructor
  · rintro ⟨m', hrun⟩
    rcases h.tryRelease_cases hN hs e.addr with ⟨_, hno⟩ | ⟨d, hd, hde, hz, -⟩
    · cases hno.symm.trans hrun
    · obtain rfl := h.eq_of_addr_eq hs hd he hde
      simpa [Intact] using hz
  · intro hz
    obtain ⟨m', _, hrun, -⟩ := h.tryRelease_of_mem_intact hN hs he (hz e List.mem_cons_self)
    exact ⟨m', hrun⟩

end Step

/-- A proper request does not halt and leaves the zones of all live blocks intact. -/
theorem exec_proper (hN : 0 < N) (hs : Lawful s₀) (h : Accounted s₀ log live m)
    (hz : Intact live m.memory) {r : Request} (hr : r.Proper live) :
    (∃ reply, (exec m r).1 = .ok reply) ∧
      Intact (r.settle live (exec m r).1) (exec m r).2.memory := by
  cases r with
  | alloc bytes kind =>
    rcases h.allocZeroed_cases hN hs (max bytes 1) kind with
      ⟨_, _, _, hrun, -, -, hu⟩ | ⟨_, _, _, _, _, hrun, -, hu, hp⟩
    · rw [exec_alloc_of_none hrun]
      exact ⟨⟨_, rfl⟩, hz.of_undisturbed hu⟩
    · rw [exec_alloc_of_some hrun]
      exact ⟨⟨_, rfl⟩, (hz.of_undisturbed hu).cons hp⟩
  | allocZeroed bytes kind =>
    rcases h.allocZeroed_cases hN hs bytes kind with
      ⟨_, _, _, hrun, -, -, hu⟩ | ⟨_, _, _, _, _, hrun, -, hu, hp⟩
    · rw [exec_allocZeroed hrun]
      exact ⟨⟨_, rfl⟩, hz.of_undisturbed hu⟩
    · rw [exec_allocZeroed hrun]
      exact ⟨⟨_, rfl⟩, (hz.of_undisturbed hu).cons hp⟩
  | tryRelease a =>
    rcases h.tryRelease_cases hN hs a with ⟨_, hrun⟩ | ⟨e, he, rfl, -, m', _, hrun, hm, -⟩
    · rw [exec_tryRelease hrun]
      exact ⟨⟨_, rfl⟩, hz⟩
    · rw [exec_tryRelease hrun]
      exact ⟨⟨_, rfl⟩, (hz.filter _).of_undisturbed (h.undisturbed_release hs he hm)⟩
  | release a =>
    obtain ⟨e, he, rfl⟩ := List.mem_map.mp hr
    have ha : e.addr ≠ 0 := Nat.ne_zero_of_lt (h.bounds hs he).1
    obtain ⟨m', _, hrun, hm, -⟩ := h.tryRelease_of_mem_intact hN hs he (hz e he)
    rw [exec_release_of_ok ha hrun]
    exact ⟨⟨_, rfl⟩, (hz.filter _).of_undisturbed (h.undisturbed_release hs he hm)⟩
  | write a bs =>
    obtain ⟨e, he, hl, hu⟩ := hr
    rw [exec_write]
    refine ⟨⟨_, rfl⟩, h.intact_of_inside hs he hz ?_⟩
    intro x hx
    exact Memory.get_write_of_outside _ _ _ _ (by omega)

end Accounted

section Play

variable {m₀ : Machine (Guarded N S)}

/-- The history of a run tells which blocks its heap holds. -/
theorem exists_accounted (hN : 0 < N) (hs : Separate s₀) (h₀ : m₀.heap = .new N s₀)
    (rs : List Request) :
    ∃ log, Accounted s₀ log (play m₀ rs).1.live (play m₀ rs).2 := by
  induction rs with
  | nil => exact ⟨[], .new h₀⟩
  | cons r rs ih =>
    obtain ⟨log, h⟩ := ih
    exact (h.exec_step hN hs r).1

theorem play_ne_trap (hN : 0 < N) (hs : Separate s₀) (h₀ : m₀.heap = .new N s₀)
    (rs : List Request) : ∀ step ∈ (play m₀ rs).1, ∀ cause, step.2 ≠ .error (.trap cause) := by
  induction rs with
  | nil => simp [play]
  | cons r rs ih =>
    obtain ⟨log, h⟩ := exists_accounted hN hs h₀ rs
    exact List.forall_mem_cons.mpr ⟨(h.exec_step hN hs r).2, ih⟩

theorem play_proper (hN : 0 < N) (hs : Lawful s₀) (h₀ : m₀.heap = .new N s₀) {rs : List Request}
    (hp : (play m₀ rs).1.Proper) :
    (∀ step ∈ (play m₀ rs).1, ∃ reply, step.2 = .ok reply) ∧
      Intact (play m₀ rs).1.live (play m₀ rs).2.memory := by
  induction rs with
  | nil => exact ⟨by simp [play], by simp [play, History.live, Intact]⟩
  | cons r rs ih =>
    obtain ⟨log, h⟩ := exists_accounted hN hs h₀ rs
    obtain ⟨hok, hz⟩ := ih hp.1
    obtain ⟨hr, hz'⟩ := h.exec_proper hN hs hz hp.2
    exact ⟨List.forall_mem_cons.mpr ⟨hr, hok⟩, hz'⟩

end Play

/-! ## Heaps without slots

Such a heap hands out no block. A request for one may trap, but only after the source was asked.
-/

section Slotless

omit [BlockSource S] in
theorem lookup_slotless (m : Machine (Guarded 0 S)) (a : Nat) :
    m.heap.ledger.lookup a = .error .remainderByZero := rfl

theorem allocZeroed_slotless (m : Machine (Guarded 0 S)) (n : Nat) (kind : Kind) :
    ∃ m', ((allocZeroed n kind).run m = .ok none m' ∨
        (allocZeroed n kind).run m = .error (.trap .remainderByZero) m') ∧
      m'.heap.ledger = m.heap.ledger := by
  rcases Nat.lt_or_ge (n + 2 * width) Memory.top with hb | hb
  · rcases hr : BlockSource.alloc m.heap.source m.memory (n + 2 * width) kind with
      ⟨_ | base, source, memory⟩
    · exact ⟨_, .inl (allocZeroed_of_refusal hb hr), rfl⟩
    · exact ⟨_, .inr (allocZeroed_of_trap hb hr rfl), rfl⟩
  · exact ⟨m, .inl (allocZeroed_of_huge hb), rfl⟩

theorem exec_slotless (m : Machine (Guarded 0 S)) (r : Request) :
    (exec m r).2.heap.ledger = m.heap.ledger ∧ r.settle [] (exec m r).1 = [] := by
  cases r with
  | alloc bytes kind =>
    obtain ⟨m', hrun | hrun, hledger⟩ := allocZeroed_slotless m (max bytes 1) kind
    · rw [exec_alloc_of_none hrun]
      exact ⟨hledger, rfl⟩
    · rw [exec_alloc_of_halt hrun]
      exact ⟨hledger, rfl⟩
  | allocZeroed bytes kind =>
    obtain ⟨m', hrun | hrun, hledger⟩ := allocZeroed_slotless m bytes kind
    · rw [exec_allocZeroed hrun]
      exact ⟨hledger, rfl⟩
    · rw [exec_allocZeroed_of_halt hrun]
      exact ⟨hledger, rfl⟩
  | tryRelease a =>
    rw [exec_tryRelease_of_halt (tryRelease_of_trap (lookup_slotless m a))]
    exact ⟨rfl, rfl⟩
  | release a =>
    rcases Nat.eq_zero_or_pos a with rfl | ha
    · rw [exec_release_zero]
      exact ⟨rfl, rfl⟩
    · rw [exec_release_of_halt ha.ne' (tryRelease_of_trap (lookup_slotless m a))]
      exact ⟨rfl, rfl⟩
  | write a bs =>
    rw [exec_write]
    exact ⟨rfl, rfl⟩

theorem play_slotless {m₀ : Machine (Guarded 0 S)} (h₀ : m₀.heap = .new 0 s₀)
    (rs : List Request) :
    (play m₀ rs).2.heap.ledger = .empty 0 ∧ (play m₀ rs).1.live = [] := by
  induction rs with
  | nil => exact ⟨by rw [play, h₀]; rfl, rfl⟩
  | cons r rs ih =>
    obtain ⟨hledger, hlive⟩ := ih
    obtain ⟨hledger', hlive'⟩ := exec_slotless (play m₀ rs).2 r
    constructor
    · rw [← hledger]
      exact hledger'
    · change r.settle (play m₀ rs).1.live _ = []
      rw [hlive]
      exact hlive'

end Slotless

/-- The ledger lists the live blocks, each once. -/
structure Listed (live : List Entry) (m : Machine (Guarded N S)) : Prop where
  sound : m.heap.ledger.Sound
  entries_perm : m.heap.ledger.entries ~ live
  nodup : (live.map Entry.addr).Nodup
  bounds : ∀ e ∈ live, width < e.addr ∧ e.addr + e.size + width ≤ Memory.top

/-- After any run of any heap, with slots or without, the ledger lists what the history says. -/
theorem play_listed {m₀ : Machine (Guarded N S)} (hs : Separate s₀) (h₀ : m₀.heap = .new N s₀)
    (rs : List Request) : Listed (play m₀ rs).1.live (play m₀ rs).2 := by
  rcases Nat.eq_zero_or_pos N with rfl | hN
  · obtain ⟨hledger, hlive⟩ := play_slotless h₀ rs
    rw [hlive]
    constructor
    · rw [hledger]
      exact Ledger.sound_empty 0
    · rw [hledger]
      exact .of_eq (Ledger.entries_empty 0)
    · exact List.nodup_nil
    · intro e he
      cases he
  · obtain ⟨log, h⟩ := exists_accounted hN hs h₀ rs
    exact ⟨h.sound, h.entries_perm, h.nodup_addr hs, fun _ => h.bounds hs⟩

end Guarded

end HeapGuard
