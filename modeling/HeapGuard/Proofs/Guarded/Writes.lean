import HeapGuard.Proofs.Guarded.Answers

/-! # What a guarded heap writes

A request that is granted leaves zeros between two zones of canaries, whatever the bytes were
before, and a block that is released goes back to its source poisoned between its zones. What
the source writes when it is called is its own affair, as far as its contract goes: the heap
writes no other bytes, and the other live blocks and their entries in the ledger are left alone.
-/

namespace HeapGuard.Guarded

open Arena (Event)
open BlockSource (Lawful)
open RedZone (width InZone)

variable {N : Nat} {S : Type} [BlockSource S]

/-- The `n` bytes at `p` were handed out between the two machines. -/
structure HandedOut (m : Machine (Guarded N S)) (n : Nat) (kind : Kind) (p : Nat)
    (m' : Machine (Guarded N S)) : Prop where
  /-- The block of the source starts at the first zone and ends with the second. -/
  block : (BlockSource.alloc m.heap.source m.memory (n + 32) kind).1 = some (p - 16) ∧ 16 < p ∧
    p + n + 16 ≤ 2 ^ 64
  zeros : ∀ x, p ≤ x → x < p + n → m'.memory.get x = 0
  canaries : ∀ x, p - 16 ≤ x ∧ x < p ∨ p + n ≤ x ∧ x < p + n + 16 → m'.memory.get x = 0xAB
  /-- All other bytes are as the source left them. -/
  unchanged : ∀ x, x < p - 16 ∨ p ≤ x ∧ x < p + n ∨ p + n + 16 ≤ x → m'.memory.get x =
    (BlockSource.alloc m.heap.source m.memory (n + 32) kind).2.2.get x
  live_blocks : ∀ e ∈ m.heap.ledger.entries, ∀ x, e.addr - 16 ≤ x → x < e.addr + e.size + 16 →
    m'.memory.get x = m.memory.get x
  lookup_self : m'.heap.ledger.lookup p = .ok (some ⟨p, n, kind⟩)
  lookup_eq : ∀ a, a ≠ p → m'.heap.ledger.lookup a = m.heap.ledger.lookup a

/-- The block of the entry was released between the two machines, and memory was `given` when the
source had it back. -/
structure TakenBack (m : Machine (Guarded N S)) (e : Entry) (given : Memory)
    (m' : Machine (Guarded N S)) : Prop where
  was_live : m.heap.ledger.lookup e.addr = .ok (some e)
  poison : ∀ x, e.addr ≤ x → x < e.addr + e.size → given.get x = 0xFE
  unchanged : ∀ x, x < e.addr ∨ e.addr + e.size ≤ x → given.get x = m.memory.get x
  canaries : ∀ x, e.addr - 16 ≤ x ∧ x < e.addr ∨ e.addr + e.size ≤ x ∧ x < e.addr + e.size + 16 →
    given.get x = 0xAB
  /-- After the call to the source nothing is written. -/
  source_run : BlockSource.release m.heap.source given (e.addr - 16) =
    (m'.heap.source, m'.memory)
  live_blocks : ∀ d ∈ m.heap.ledger.entries, d.addr ≠ e.addr → ∀ x, d.addr - 16 ≤ x →
    x < d.addr + d.size + 16 → m'.memory.get x = m.memory.get x
  lookup_self : m'.heap.ledger.lookup e.addr = .ok none
  lookup_eq : ∀ a, a ≠ e.addr → m'.heap.ledger.lookup a = m.heap.ledger.lookup a

namespace Accounted

variable {s₀ : S} {log log' calls : List Event} {live live' : List Entry}
  {m m' : Machine (Guarded N S)} {n p : Nat} {kind : Kind}

theorem handedOut (hN : 0 < N) (hs : Lawful s₀) (h : Accounted s₀ log live m)
    (hv : Served m live n kind (some p) calls live' m')
    (h' : Accounted s₀ (calls ++ log) live' m') : HandedOut m n kind p m' := by
  have hu := hv.undisturbed hs h
  cases hv with
  | @entered base source memory ledger _ hr _ =>
    obtain ⟨hpos, htop, -⟩ := hs.alloc_some h.reaches (RedZone.total_pos n) hr
    obtain ⟨hz, hzero⟩ := h.pristine_fill hs hr
    simp only [Memory.top, width, InZone] at hpos htop hz hr
    constructor
    · rw [hr]
      exact ⟨rfl, by simp only [width]; omega, by simp only [width]; omega⟩
    · exact hzero
    · intro x hx
      simp only [width] at hx
      exact hz x (by omega)
    · intro x hx
      rw [hr]
      apply RedZone.get_fill_of_not_inZone (by simp only [Memory.top, width]; omega)
      simp only [InZone, width] at hx ⊢
      omega
    · intro e he x hl hx
      have hlive := h.entries_perm.subset he
      exact hu e hlive x (h.covers_extent hs hlive hl hx)
    · exact (h'.lookup_of_mem hN hs List.mem_cons_self).1
    · intro a ha
      refine h.lookup_congr hN hs h' ?_
      rintro e rfl
      have hne : e ≠ ⟨base + width, n, kind⟩ := fun heq => ha (congrArg Entry.addr heq)
      simp [hne]

theorem takenBack (hN : 0 < N) (hs : Lawful s₀) (h : Accounted s₀ log live m)
    (hrun : (tryRelease p).run m = .ok (.ok ()) m') :
    ∃ e given, e.addr = p ∧ TakenBack m e given m' := by
  rcases h.tryRelease_cases hN hs p with ⟨_, hno⟩ | ⟨e, he, rfl, hz, m'', log', hok, hm, h'⟩
  · cases hno.symm.trans hrun
  · cases hok.symm.trans hrun
    obtain ⟨hb, ht⟩ := h.bounds hs he
    have hout : ∀ x, x < e.addr ∨ e.addr + e.size ≤ x →
        (RedZone.poison m.memory e.addr e.size).get x = m.memory.get x :=
      fun x => RedZone.get_poison_of_outside
    refine ⟨e, RedZone.poison m.memory e.addr e.size, rfl, (h.lookup_of_mem hN hs he).1, ?_, hout,
      ?_, hm, ?_, ?_, ?_⟩
    · intro x hl hx
      rw [RedZone.get_poison_of_inside (by omega) hl hx]
      rfl
    · intro x hx
      simp only [InZone, width] at hz hb
      rw [hout x (by omega)]
      exact hz x (by omega)
    · intro d hd hne x hl hx
      have hlive := h.entries_perm.subset hd
      have hrest : d ∈ live.filter (·.addr != e.addr) :=
        List.mem_filter.mpr ⟨hlive, bne_iff_ne.mpr hne⟩
      exact h.undisturbed_release hs he hm d hrest x (h.covers_extent hs hlive hl hx)
    · exact h'.lookup_of_absent hN (by simp)
    · intro a ha
      refine h.lookup_congr hN hs h' ?_
      rintro d rfl
      simp [ha]

end Accounted

/-- Whatever a client has written: in every state of a run, granted requests and accepted releases
write the bytes of their own block and no others, before and after the one call to the source. -/
theorem play_writes {s₀ : S} {m₀ : Machine (Guarded N S)} (hN : 0 < N) (hs : Lawful s₀)
    (h₀ : m₀.heap = .new N s₀) (rs : List Request) :
    let m := (play m₀ rs).2
    (∀ bytes kind p m', (Heap.alloc bytes kind).run m = .ok (.ok p) m' →
      HandedOut m (max bytes 1) kind p m') ∧
    ∀ p m', (tryRelease p).run m = .ok (.ok ()) m' →
      ∃ e given, e.addr = p ∧ TakenBack m e given m' := by
  intro m
  obtain ⟨log, h⟩ := exists_accounted hN hs h₀ rs
  constructor
  · rintro bytes kind p m' hrun
    obtain ⟨block, calls, live', m'', hrun', hv, h'⟩ := h.alloc_served hN hs bytes kind
    cases block with
    | none => cases hrun'.symm.trans hrun
    | some a =>
      cases hrun'.symm.trans hrun
      exact h.handedOut hN hs hv h'
  · rintro p m' hrun
    exact h.takenBack hN hs hrun

/-- A block is given back and then written to, over its first bytes and into the zone before it. -/
def dangling : List Request :=
  [.write (Arena.base + 8) (List.replicate 12 7), .tryRelease (Arena.base + 16),
    .alloc 16 .object, .alloc 9 .buffer]

theorem play_writes_dangling :
    let m := (play (onPage 2) dangling).2
    m.memory.read (Arena.base + 15) 10 = [7, 7, 7, 7, 7, 0xFE, 0xFE, 0xFE, 0xFE, 0xFE] ∧
      (∃ m', (Heap.alloc 12 .scratch).run m = .ok (.ok (Arena.base + 16)) m' ∧
        HandedOut m 12 .scratch (Arena.base + 16) m') ∧
      ∃ m', (tryRelease (Arena.base + 64)).run m = .ok (.ok ()) m' ∧
        ∃ e, e.addr = Arena.base + 64 ∧ TakenBack m e m'.memory m' := by
  intro m
  obtain ⟨halloc, hrelease⟩ :=
    play_writes (by decide) Arena.lawful_page (rfl : (onPage 2).heap = _) dangling
  obtain ⟨m₁, h₁⟩ : ∃ m₁, (Heap.alloc 12 .scratch).run m = .ok (.ok (Arena.base + 16)) m₁ :=
    Action.exists_run_of_answer (by decide +kernel)
  obtain ⟨m₂, h₂⟩ : ∃ m₂, (tryRelease (Arena.base + 64)).run m = .ok (.ok ()) m₂ :=
    Action.exists_run_of_answer (by decide +kernel)
  obtain ⟨e, given, he, h⟩ := hrelease _ _ h₂
  -- an arena writes nothing when it takes a block back
  obtain rfl : given = m₂.memory := congrArg Prod.snd h.source_run
  exact ⟨by decide +kernel, ⟨m₁, h₁, halloc _ _ _ _ h₁⟩, m₂, h₂, e, he, h⟩

end HeapGuard.Guarded
