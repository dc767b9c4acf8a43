import HeapGuard.Proofs.Ledger.Invariant
import HeapGuard.Proofs.Line
import HeapGuard.Proofs.Memory

/-! # Clients of a heap

A client asks for blocks, reads and writes them, gives them back and prints lines. It
names its blocks by number and never sees an address. On every heap that keeps its
contract it gets the answers of a store, in which a block is nothing but its bytes.
-/

namespace HeapGuard

namespace Client

open Heap (Contract Keeps)
open Memory (getElem?_read read_inside read_congr read_eq_zeros)
open scoped List

inductive Step where
  | alloc (bytes : Nat) (kind : Kind)
  | read (block offset count : Nat)
  | write (block offset : Nat) (bytes : Bytes)
  | free (block : Nat)
  | print (text : Bytes) (scratchSize : Nat) (stream : Stream)

inductive Answer where
  | block
  | refused (failure : Failure)
  | bytes (bytes : Bytes)
  | done
  /-- The result, and what the stream has been asked to write. -/
  | printed (result : Except Failure Nat) (writes : List Write)

section Run

variable {H : Type} [Heap H]

/-- Carry out a step. The addresses are those of all blocks had so far, in order. -/
def Step.run (addrs : List Nat) : Step → Action H (Answer × List Nat)
  | .alloc bytes kind => do
    match ← Heap.alloc bytes kind with
    | .ok a => return (.block, addrs ++ [a])
    | .error f => return (.refused f, addrs)
  | .read block offset count => do
    return (.bytes ((← Action.memory).read (addrs.getD block 0 + offset) count), addrs)
  | .write block offset bytes => do
    Action.modifyMemory (·.write (addrs.getD block 0 + offset) bytes)
    return (.done, addrs)
  | .free block => do
    Heap.release (addrs.getD block 0)
    return (.done, addrs)
  | .print text scratchSize stream => do
    modify fun m => { m with out := stream }
    let result ← Line.print text scratchSize
    return (.printed result (← get).out.writes, addrs)

def run (addrs : List Nat) : List Step → Action H (List Answer)
  | [] => return []
  | s :: steps => do
    let (answer, addrs) ← s.run addrs
    return answer :: (← run addrs steps)

/-- If the step needs a block, the heap has one. -/
def Step.Supplied (m : Machine H) : Step → Prop
  | .alloc bytes kind => ∃ a m', (Heap.alloc bytes kind).run m = .ok (.ok a) m'
  | .print _ scratchSize stream =>
    ∃ a m', (Heap.alloc scratchSize .scratch).run { m with out := stream } = .ok (.ok a) m'
  | _ => True

def Supplied (addrs : List Nat) (m : Machine H) : List Step → Prop
  | [] => True
  | s :: steps => s.Supplied m ∧ ∀ answer addrs' m',
    (s.run addrs).run m = .ok (answer, addrs') m' → Supplied addrs' m' steps

end Run

/-- The bytes of each block had so far, none for a block that was given back. -/
abbrev Store := List (Option Bytes)

namespace Store

def bytes (store : Store) (block : Nat) : Bytes := store[block]?.join.getD []

def HasBytes (store : Store) (block count : Nat) : Prop :=
  ∃ bytes, store[block]? = some (some bytes) ∧ count ≤ bytes.length

end Store

def overwrite (old : Bytes) (offset : Nat) (new : Bytes) : Bytes :=
  old.take offset ++ new ++ old.drop (offset + new.length)

namespace Step

/-- The client reads and writes within blocks it holds, and gives back only these. -/
def Valid (store : Store) : Step → Prop
  | .read block offset count => store.HasBytes block (offset + count)
  | .write block offset bytes => store.HasBytes block (offset + bytes.length)
  | .free block => store.HasBytes block 0
  | _ => True

def answer (store : Store) : Step → Answer
  | .alloc .. => .block
  | .read block offset count => .bytes (((store.bytes block).drop offset).take count)
  | .write .. | .free _ => .done
  | .print text scratchSize stream =>
    let (status, stream) := stream.write (Line.sent text scratchSize)
    .printed (Line.verdict text scratchSize status) stream.writes

def update (store : Store) : Step → Store
  | .alloc bytes _ => store ++ [some (List.replicate (max bytes 1) 0)]
  | .write block offset bytes => store.set block (some (overwrite (store.bytes block) offset bytes))
  | .free block => store.set block none
  | .read .. | .print .. => store

end Step

def Valid (store : Store) : List Step → Prop
  | [] => True
  | s :: steps => s.Valid store ∧ Valid (s.update store) steps

def answers (store : Store) : List Step → List Answer
  | [] => []
  | s :: steps => s.answer store :: answers (s.update store) steps

/-! ## Blocks and their bytes -/

def held : Nat × Option Bytes → Option Block
  | (a, some bytes) => some ⟨a, bytes.length⟩
  | (_, none) => none

variable {H : Type} {cells : List (Nat × Option Bytes)} {a i : Nat} {bytes : Bytes}

theorem mem_held (h : cells[i]? = some (a, some bytes)) :
    (⟨a, bytes.length⟩ : Block) ∈ cells.filterMap held :=
  List.mem_filterMap.mpr ⟨_, List.mem_of_getElem? h, rfl⟩

theorem held_perm (h : cells[i]? = some (a, some bytes)) :
    cells.filterMap held ~ ⟨a, bytes.length⟩ :: (cells.set i (a, none)).filterMap held := by
  obtain ⟨hi, hc⟩ := List.getElem?_eq_some_iff.mp h
  have hset : (cells.set i (a, none)).set i (a, some bytes) = cells := by
    rw [List.set_set, ← hc, List.set_getElem_self]
  conv_lhs => rw [← hset]
  exact Ledger.filterMap_set_perm (by simpa using hi) (by simp [held]) rfl

theorem held_set {new : Bytes} (h : cells[i]? = some (a, some bytes))
    (hlen : new.length = bytes.length) :
    (cells.set i (a, some new)).filterMap held = cells.filterMap held := by
  have hmap : (cells.set i (a, some new)).map held = cells.map held := by
    apply List.ext_getElem?
    intro j
    rw [List.getElem?_map, List.getElem?_map]
    by_cases hj : i = j
    · obtain ⟨hi, -⟩ := List.getElem?_eq_some_iff.mp h
      rw [← hj, List.getElem?_set_self hi, h, Option.map_some, Option.map_some, held, held, hlen]
    · rw [List.getElem?_set_ne hj]
  have hid (l : List (Nat × Option Bytes)) : l.filterMap held = (l.map held).filterMap id := by
    rw [List.filterMap_map]
    rfl
  rw [hid, hmap, ← hid]

theorem length_overwrite {old new : Bytes} {offset : Nat} (h : offset + new.length ≤ old.length) :
    (overwrite old offset new).length = old.length := by
  simp only [overwrite, List.length_append, List.length_take, List.length_drop]
  omega

theorem getElem?_overwrite {old new : Bytes} {offset i : Nat}
    (h : offset + new.length ≤ old.length) (hi : i < old.length) :
    (overwrite old offset new)[i]? =
      if offset ≤ i ∧ i < offset + new.length then new[i - offset]? else old[i]? := by
  rw [overwrite, List.append_assoc]
  rcases Nat.lt_or_ge i offset with hlo | hlo
  · rw [List.getElem?_append_left (by rw [List.length_take]; omega), List.getElem?_take_of_lt hlo,
      if_neg (by omega)]
  · rw [List.getElem?_append_right (by rw [List.length_take]; omega), List.length_take,
      Nat.min_eq_left (by omega)]
    rcases Nat.lt_or_ge i (offset + new.length) with hhi | hhi
    · rw [List.getElem?_append_left (by omega), if_pos ⟨hlo, hhi⟩]
    · rw [List.getElem?_append_right (by omega), List.getElem?_drop, if_neg (by omega)]
      congr 1
      omega

theorem read_write_inside {memory : Memory} {offset : Nat} {new : Bytes}
    (h : offset + new.length ≤ bytes.length) (htop : a + bytes.length ≤ Memory.top)
    (hr : memory.read a bytes.length = bytes) :
    (memory.write (a + offset) new).read a bytes.length = overwrite bytes offset new := by
  apply List.ext_getElem?
  intro i
  rcases Nat.lt_or_ge i bytes.length with hi | hi
  · rw [getElem?_read _ _ hi, getElem?_overwrite h hi]
    by_cases hin : offset ≤ i ∧ i < offset + new.length
    · rw [if_pos hin, Memory.get_write, if_pos ⟨by omega, by omega⟩,
        show a + i - (a + offset) = i - offset by omega, List.getElem?_eq_getElem (by omega),
        Option.getD_some]
    · rw [if_neg hin, Memory.get_write_of_outside _ _ _ _ (by omega), ← getElem?_read memory a hi,
        hr]
  · rw [List.getElem?_eq_none (by simpa using hi),
      List.getElem?_eq_none (by rwa [length_overwrite h])]

/-! ## Runs -/

theorem exists_cell {n : Nat} (h : Store.HasBytes (cells.map Prod.snd) i n) :
    ∃ a bytes, cells[i]? = some (a, some bytes) ∧ n ≤ bytes.length ∧
      Store.bytes (cells.map Prod.snd) i = bytes := by
  obtain ⟨bytes, hb, hn⟩ := h
  rw [List.getElem?_map, Option.map_eq_some_iff] at hb
  obtain ⟨⟨a, _⟩, hc, rfl⟩ := hb
  refine ⟨a, bytes, hc, hn, ?_⟩
  simp [Store.bytes, hc]

theorem map_fst_set {old new : Option Bytes} (h : cells[i]? = some (a, old)) :
    (cells.set i (a, new)).map Prod.fst = cells.map Prod.fst := by
  obtain ⟨hi, hc⟩ := List.getElem?_eq_some_iff.mp h
  have hset : (cells.set i (a, new)).map Prod.fst = (cells.set i cells[i]).map Prod.fst := by
    rw [List.map_set, List.map_set, hc]
  rw [hset, List.set_getElem_self]

/-- The heap holds the blocks, with the bytes that the client has put there. -/
structure Mirrors (Holds : List Block → Machine H → Prop) (cells : List (Nat × Option Bytes))
    (m : Machine H) : Prop where
  holds : Holds (cells.filterMap held) m
  read_eq : ∀ {i a : Nat} {bytes : Bytes}, cells[i]? = some (a, some bytes) →
    m.memory.read a bytes.length = bytes

theorem Mirrors.of_keeps {Holds : List Block → Machine H → Prop} {m m' : Machine H}
    (h : Mirrors Holds cells m) (hm : Holds (cells.filterMap held) m') {out : Stream}
    (hk : Keeps (cells.filterMap held) { m with out } m') : Mirrors Holds cells m' where
  holds := hm
  read_eq hi := (read_congr (hk.get_eq _ (mem_held hi))).trans (h.read_eq hi)

namespace Mirrors

variable [Heap H] {Holds : List Block → Machine H → Prop} {m : Machine H}
  (hH : Contract Holds) (h : Mirrors Holds cells m)
include hH h

theorem alloc {n : Nat} {kind : Kind} (hs : (Step.alloc n kind).Supplied m) :
    ∃ a m', (Heap.alloc n kind).run m = .ok (.ok a) m' ∧
      Mirrors Holds (cells ++ [(a, some (List.replicate (max n 1) 0))]) m' := by
  rcases hH.alloc_cases h.holds n kind with ⟨m', hrun, -⟩ | ⟨a, m', hrun, hm', hk, hzero⟩
  · obtain ⟨a, m₁, hrun'⟩ := hs
    cases hrun.symm.trans hrun'
  · refine ⟨a, m', hrun, ⟨hH.perm hm' ?_, ?_⟩⟩
    · rw [List.filterMap_append]
      simpa [held] using (List.perm_append_singleton _ _).symm
    · intro i b bytes hi
      rw [List.getElem?_append] at hi
      split at hi
      · exact (read_congr (hk.get_eq _ (mem_held hi))).trans (h.read_eq hi)
      · obtain ⟨rfl, rfl⟩ : a = b ∧ List.replicate (max n 1) 0 = bytes := by
          rw [List.getElem?_singleton] at hi
          split at hi <;> simp_all
        rw [List.length_replicate]
        exact read_eq_zeros hzero

theorem apart_of_ne {j b : Nat} {others : Bytes} (hi : cells[i]? = some (a, some bytes))
    (hj : cells[j]? = some (b, some others)) (hne : i ≠ j) :
    Block.Apart ⟨a, bytes.length⟩ ⟨b, others.length⟩ := by
  have hap := hH.apart (hH.perm h.holds (held_perm hi))
  refine (List.pairwise_cons.mp hap).1 _ (mem_held (i := j) ?_)
  rw [List.getElem?_set_ne hne, hj]

theorem write {offset : Nat} {new : Bytes} (hi : cells[i]? = some (a, some bytes))
    (hlen : offset + new.length ≤ bytes.length) :
    Mirrors Holds (cells.set i (a, some (overwrite bytes offset new)))
      { m with memory := m.memory.write (a + offset) new } where
  holds := by
    rw [held_set hi (length_overwrite hlen)]
    refine hH.write h.holds (mem_held hi) fun x hx => Memory.get_write_of_outside _ _ _ _ ?_
    simp only [Block.Covers] at hx
    omega
  read_eq {j b others} hj := by
    by_cases hne : i = j
    · obtain ⟨hlt, -⟩ := List.getElem?_eq_some_iff.mp hi
      rw [← hne, List.getElem?_set_self hlt] at hj
      obtain ⟨rfl, rfl⟩ : a = b ∧ overwrite bytes offset new = others := by simpa using hj
      rw [length_overwrite hlen]
      exact read_write_inside hlen (hH.within h.holds _ (mem_held hi)) (h.read_eq hi)
    · rw [List.getElem?_set_ne hne] at hj
      have hap := h.apart_of_ne hH hi hj hne
      refine (read_congr fun x hx => Memory.get_write_of_outside _ _ _ _ ?_).trans (h.read_eq hj)
      have := hap.symm.not_covers hx
      simp only [Block.Covers] at this
      omega

theorem free (hi : cells[i]? = some (a, some bytes)) :
    ∃ m', (Heap.release a).run m = .ok () m' ∧ Mirrors Holds (cells.set i (a, none)) m' := by
  obtain ⟨m', hrun, hm', hk⟩ := hH.release (hH.perm h.holds (held_perm hi))
  refine ⟨m', hrun, hm', fun {j b others} hj => ?_⟩
  have hj' : cells[j]? = some (b, some others) := by
    by_cases hne : i = j
    · obtain ⟨hlt, -⟩ := List.getElem?_eq_some_iff.mp hi
      rw [← hne, List.getElem?_set_self hlt] at hj
      cases hj
    · rwa [List.getElem?_set_ne hne] at hj
  exact (read_congr (hk.get_eq _ (mem_held hj))).trans (h.read_eq hj')

theorem print {text : Bytes} {scratchSize : Nat} {stream : Stream}
    (hs : (Step.print text scratchSize stream).Supplied m) :
    ∃ m', (Line.print text scratchSize).run { m with out := stream } =
        .ok (Line.verdict text scratchSize (stream.write (Line.sent text scratchSize)).1) m' ∧
      m'.out = (stream.write (Line.sent text scratchSize)).2 ∧ Mirrors Holds cells m' := by
  rcases Line.print_cases hH (hH.redirect h.holds stream) text scratchSize with
    ⟨m', hrun, -⟩ | ⟨a, m₁, m', -, hrun, hm', hk⟩
  · obtain ⟨a, m₁, hrun'⟩ := hs
    cases hrun.symm.trans hrun'
  · exact ⟨m', hrun, hk.out_eq, h.of_keeps hm' hk⟩

/-- A step that is valid and supplied has the answer of the store, and leaves a mirror of it. -/
theorem run_step {s : Step} (hv : s.Valid (cells.map Prod.snd)) (hs : s.Supplied m) :
    ∃ cells' m', (s.run (cells.map Prod.fst)).run m =
        .ok (s.answer (cells.map Prod.snd), cells'.map Prod.fst) m' ∧
      cells'.map Prod.snd = s.update (cells.map Prod.snd) ∧ Mirrors Holds cells' m' := by
  cases s with
  | alloc n kind =>
    obtain ⟨a, m', hrun, hm'⟩ := h.alloc hH hs
    refine ⟨_, m', ?_, ?_, hm'⟩
    · simp [Step.run, Step.answer, hrun]
    · simp [Step.update]
  | read block offset count =>
    obtain ⟨a, bytes, hc, hn, hb⟩ := exists_cell hv
    refine ⟨cells, m, ?_, rfl, h⟩
    simp [Step.run, Step.answer, hb, hc, read_inside hn (h.read_eq hc)]
  | write block offset new =>
    obtain ⟨a, bytes, hc, hn, hb⟩ := exists_cell hv
    refine ⟨_, _, ?_, ?_, h.write hH hc hn⟩
    · simp [Step.run, Step.answer, hc, map_fst_set hc]
    · rw [List.map_set, Step.update, hb]
  | free block =>
    obtain ⟨a, bytes, hc, -, -⟩ := exists_cell hv
    obtain ⟨m', hrun, hm'⟩ := h.free hH hc
    refine ⟨_, m', ?_, ?_, hm'⟩
    · simp [Step.run, Step.answer, hc, hrun, map_fst_set hc]
    · rw [List.map_set, Step.update]
  | print text scratchSize stream =>
    obtain ⟨m', hrun, hout, hm'⟩ := h.print hH hs
    refine ⟨cells, m', ?_, rfl, hm'⟩
    simp [Step.run, Step.answer, hrun, hout]

end Mirrors

section Runs

variable [Heap H] {Holds : List Block → Machine H → Prop}

theorem Mirrors.run_steps (hH : Contract Holds) {m : Machine H} (h : Mirrors Holds cells m)
    {steps : List Step} (hv : Valid (cells.map Prod.snd) steps)
    (hs : Supplied (cells.map Prod.fst) m steps) :
    ∃ m', (run (cells.map Prod.fst) steps).run m = .ok (answers (cells.map Prod.snd) steps) m' := by
  induction steps generalizing cells m with
  | nil => exact ⟨m, rfl⟩
  | cons s steps ih =>
    obtain ⟨cells', m₁, hrun, hstore, h₁⟩ := h.run_step hH hv.1 hs.1
    have hv' := hv.2
    rw [← hstore] at hv'
    obtain ⟨m', hrest⟩ := ih h₁ hv' (hs.2 _ _ _ hrun)
    refine ⟨m', ?_⟩
    simp [run, answers, hrun, hrest, hstore]

/-- A client that keeps to its blocks, on a heap that always has a block for it, gets the answers of
the store. -/
theorem run_eq_answers (hH : Contract Holds) {m : Machine H} (hm : Holds [] m) {steps : List Step}
    (hv : Valid [] steps) (hs : Supplied [] m steps) :
    ∃ m', (run [] steps).run m = .ok (answers [] steps) m' := by
  have h : Mirrors Holds [] m := ⟨hm, by simp⟩
  exact h.run_steps hH hv hs

end Runs

end Client

end HeapGuard
