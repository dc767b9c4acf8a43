import HeapGuard.Proofs.Guarded.Answers
import HeapGuard.Proofs.Guarded.Calls
import HeapGuard.Proofs.Guarded.Contract
import HeapGuard.Proofs.Line
import HeapGuard.Proofs.StringObject.Operations

/-! # Scratch blocks on a guarded heap

Printing a line and reading an integer from a string object borrow a block. Whatever
the state of the heap, and whether or not it has a block to lend, they return. The source has
back what it handed out to them, and the heap answers as before. Blocks that are live at the
time may be damaged; they are left as they are.
-/

namespace HeapGuard

open BlockSource (Lawful)

namespace Guarded

variable {N : Nat} {S α : Type}

section Calls

theorem Asks.writeOut (b : Bytes) : Quiet (N := N) (S := S) (Action.writeOut b) := by
  rintro m _ _ ⟨⟩
  exact ⟨[], rfl, rfl⟩

theorem Matches.writeOut (b : Bytes) :
    Matches (N := N) (S := S) (Action.writeOut b) (Action.writeOut b) := fun _ => rfl

theorem Asks.send (text : Bytes) (fits : Nat) (s : Heap.Scratch) :
    Quiet (N := N) (S := S) (Line.send text fits s) := by
  have hformat : Quiet (N := N) (S := S) (Line.format text s) :=
    bind_quiet (modifyMemory _) fun _ => pure rfl
  refine bind_quiet hformat fun composed => ?_
  split
  · exact pure rfl
  · exact get_bind fun _ => writeOut _

theorem Matches.send (text : Bytes) (fits : Nat) (s : Heap.Scratch) :
    Matches (N := N) (S := S) (Line.send text fits s) (Line.send text fits s) := by
  have hformat : Matches (N := N) (S := S) (Line.format text s) (Line.format text s) :=
    (modifyMemory _).bind fun _ => pure _
  refine hformat.bind fun composed => ?_
  split
  · exact pure _
  · exact get_bind fun _ => writeOut _

theorem Asks.parse (o : StringObject) (s : Heap.Scratch) :
    Quiet (N := N) (S := S) (o.parse s) :=
  bind_quiet (modifyMemory _) fun _ => get_bind fun _ => pure rfl

theorem Matches.parse (o : StringObject) (s : Heap.Scratch) :
    Matches (N := N) (S := S) (o.parse s) (o.parse s) :=
  (modifyMemory _).bind fun _ => get_bind fun _ => pure _

variable [BlockSource S]

theorem Matches.withScratch {capacity : Nat} {body : Heap.Scratch → Action (Guarded N (Logged S)) α}
    {body' : Heap.Scratch → Action (Guarded N S) α} (hb : ∀ s, Matches (body s) (body' s)) :
    Matches (Heap.withScratch capacity body) (Heap.withScratch capacity body') := by
  have hopen : Matches (N := N) (S := S) (Heap.openScratch capacity) (Heap.openScratch capacity) :=
    (alloc capacity .scratch).bind fun r => by cases r <;> exact pure _
  refine hopen.bind fun r => ?_
  cases r with
  | error f => exact pure _
  | ok s => exact (hb s).bind fun _ => (release s.addr).bind fun _ => pure _

theorem Asks.print (text : Bytes) (scratchSize : Nat) :
    Asks (N := N) (S := S) (Line.print text scratchSize) fun _ calls => Settled calls := by
  rw [Line.print_eq]
  apply (withScratch (send _ _)).bind
  intro status calls hc
  exact pure hc

theorem Matches.print (text : Bytes) (scratchSize : Nat) :
    Matches (N := N) (S := S) (Line.print text scratchSize) (Line.print text scratchSize) := by
  rw [Line.print_eq, Line.print_eq]
  exact (withScratch (send _ _)).bind fun _ => pure _

end Calls

variable [BlockSource S] {s₀ : S} {log : List Arena.Event} {live : List Entry}

/-- Between the two machines at most one block was handed out by the source, and it went back; the
heap answers as before, and the live blocks and their zones hold the same bytes. -/
structure Restored (live : List Entry) (m m' : Machine (Guarded N (Logged S))) : Prop where
  calls : ∃ calls, m'.heap.source.log = calls ++ m.heap.source.log ∧ Settled calls
  lookup_eq : ∀ a, m'.heap.ledger.lookup a = m.heap.ledger.lookup a
  isLive_run : ∀ a, ∃ answer, (isLive a).run m = .ok answer m ∧ (isLive a).run m' = .ok answer m'
  live_eq : m'.heap.ledger.live = m.heap.ledger.live
  liveBytes_eq : m'.heap.ledger.liveBytes = m.heap.ledger.liveBytes
  bytes_eq : ∀ e ∈ live, ∀ x, e.addr - 16 ≤ x → x < e.addr + e.size + 16 →
    m'.memory.get x = m.memory.get x

/-- The call returns, it restores the heap, and the heap over the bare source does the same. -/
def Borrows (live : List Entry) (m : Machine (Guarded N (Logged S)))
    (x : Action (Guarded N (Logged S)) α) (y : Action (Guarded N S) α) : Prop :=
  ∃ result m', x.run m = .ok result m' ∧ y.run (unlogged m) = .ok result (unlogged m') ∧
    Restored live m m'

variable {m m' : Machine (Guarded N (Logged S))}

theorem Accounted.restored (hN : 0 < N) (hs : Lawful s₀)
    (h : Accounted (⟨s₀, []⟩ : Logged S) log live m)
    (hm' : Holds (⟨s₀, []⟩ : Logged S) live m.memory [] m')
    (hc : ∃ calls, m'.heap.source.log = calls ++ m.heap.source.log ∧ Settled calls) :
    Restored live m m' := by
  have hs' := Logged.lawful hs
  obtain ⟨log', h', hu⟩ := hm'.accounted
  refine ⟨hc, fun a => h.lookup_congr hN hs' h' fun _ _ => .rfl,
    fun a => ⟨_, h.isLive_run hN a, h'.isLive_run hN a⟩, ?_, ?_, ?_⟩
  · rw [h.live_eq, h'.live_eq]
  · rw [h.liveBytes_eq, h'.liveBytes_eq]
  · intro e he x hl hx
    exact hu e he x (h.covers_extent hs' he hl hx)

theorem Accounted.borrows {x : Action (Guarded N (Logged S)) α} {y : Action (Guarded N S) α}
    (hN : 0 < N) (hs : Lawful s₀) (h : Accounted (⟨s₀, []⟩ : Logged S) log live m)
    (hx : Asks x fun _ calls => Settled calls) (hxy : Matches x y)
    (hrun : ∃ result m', x.run m = .ok result m' ∧
      Holds (⟨s₀, []⟩ : Logged S) live m.memory [] m') : Borrows live m x y := by
  obtain ⟨result, m', hrun, hm'⟩ := hrun
  refine ⟨result, m', hrun, ?_, h.restored hN hs hm' (hx m result m' hrun)⟩
  rw [hxy m, hrun]

section Borrowers

variable (hN : 0 < N) (hs : Lawful s₀) (h : Accounted (⟨s₀, []⟩ : Logged S) log live m)
include hN hs h

theorem Accounted.borrows_print (text : Bytes) (scratchSize : Nat) :
    Borrows live m (Line.print text scratchSize) (Line.print text scratchSize) := by
  refine h.borrows hN hs (.print text scratchSize) (.print text scratchSize) ?_
  rcases Line.print_cases (contract hN (Logged.lawful hs) live m.memory) h.holds text scratchSize
    with ⟨m', -, hrun, hm', -⟩ | ⟨_, _, m', -, hrun, hm', -⟩
  · exact ⟨_, m', hrun, hm'⟩
  · exact ⟨_, m', hrun, hm'⟩

theorem Accounted.borrows_toInt32 (s : StringObject) : Borrows live m s.toInt32 s.toInt32 := by
  rw [StringObject.toInt32_eq_withScratch, StringObject.toInt32_eq_withScratch]
  refine h.borrows hN hs (.withScratch (.parse s)) (.withScratch (.parse s)) ?_
  rcases (contract hN (Logged.lawful hs) live m.memory).withScratch_cases h.holds (s.size + 1)
    s.contained_parse with ⟨m', -, hrun, hm', -⟩ | ⟨_, _, _, _, _, m', -, -, -, -, -, hrun, hm', -⟩
  · exact ⟨_, m', hrun, hm'⟩
  · exact ⟨_, m', hrun, hm'⟩

end Borrowers

/-- Whatever a client has done before, printing a line and reading an integer only borrow from the
heap. -/
theorem play_borrows {m₀ : Machine (Guarded N S)} (hN : 0 < N) (hs : Lawful s₀)
    (h₀ : m₀.heap = .new N s₀) (rs : List Request) :
    let m := (play (recorded m₀) rs).2
    play m₀ rs = ((play (recorded m₀) rs).1, unlogged m) ∧
      (∀ text scratchSize, Borrows (play m₀ rs).1.live m (Line.print text scratchSize)
        (Line.print text scratchSize)) ∧
      ∀ s : StringObject, Borrows (play m₀ rs).1.live m s.toInt32 s.toInt32 := by
  obtain ⟨log, h⟩ := exists_accounted hN (Logged.lawful hs) (recorded_heap h₀) rs
  rw [play_eq_recorded m₀ rs]
  exact ⟨rfl, h.borrows_print hN hs, h.borrows_toInt32 hN hs⟩

theorem play_borrows_damaged :
    let m := (play (recorded (onPage 2)) byteBehind).2
    let live := (play (onPage 2) byteBehind).1.live
    live = [⟨Arena.base + 16, 1, .buffer⟩] ∧
      Borrows live m (Line.print [104, 105] 0) (Line.print [104, 105] 0) ∧
      Borrows live m (StringObject.toInt32 ⟨1, Arena.base + 16⟩)
        (StringObject.toInt32 ⟨1, Arena.base + 16⟩) := by
  intro m live
  have h₀ : (onPage 2).heap = .new 2 .page := rfl
  obtain ⟨-, hprint, hread⟩ := play_borrows (by decide) Arena.lawful_page h₀ byteBehind
  exact ⟨by decide, hprint _ _, hread _⟩

end Guarded

end HeapGuard
