import HeapGuard.Proofs.Heap.Scratch
import HeapGuard.Proofs.Memory
import HeapGuard.StringObject

/-! # Runs of the operations on string objects

What each operation answers and leaves behind, by the answers of the heap. An object is
loaded as it was stored. Reading an integer sees the bytes of the object as they were
before the scratch block was had, as long as no request for a block can change them.
-/

namespace HeapGuard

open Heap (Contract Contained)

namespace Heap

variable {H : Type} [Heap H]

/-- No request for a block changes the byte at the address. -/
def Spares (m : Machine H) (x : Nat) : Prop :=
  ∀ bytes kind r m', (Heap.alloc bytes kind).run m = .ok r m' →
    m'.memory.get x = m.memory.get x

end Heap

namespace StringObject

variable {H : Type} {s : StringObject} {m m₁ m₂ m₃ : Machine H} {memory : Memory} {a data : Nat}

/-! ## Objects in memory -/

theorem get_store_of_outside {x : Nat} (hx : ¬ Block.Covers ⟨a, headerSize⟩ x) :
    (s.store memory a).get x = memory.get x := by
  have hlen (w : Nat) : (Memory.wordBytes w).length = 8 := by simp [Memory.wordBytes]
  simp only [Block.Covers, headerSize] at hx
  unfold store Memory.writeWord
  rw [Memory.get_write_of_outside _ _ _ _ (by rw [hlen]; omega),
    Memory.get_write_of_outside _ _ _ _ (by rw [hlen]; omega)]

theorem load_store (ha : a + headerSize ≤ Memory.top) (hlen : s.len < Memory.top)
    (hdata : s.data < Memory.top) : load (s.store memory a) a = s := by
  have hw : (Memory.wordBytes s.data).length = 8 := by simp [Memory.wordBytes]
  simp only [headerSize] at ha
  have hfirst : (s.store memory a).readWord a = (memory.writeWord a s.len).readWord a := by
    unfold store Memory.readWord
    rw [Memory.read_congr fun x hx => ?_]
    refine Memory.get_write_of_outside _ _ _ _ ?_
    simp only [Block.Covers] at hx
    omega
  unfold load
  rw [hfirst, Memory.readWord_writeWord _ (by omega) hlen, store,
    Memory.readWord_writeWord _ (by omega) hdata]

theorem length_bytes (s : StringObject) (memory : Memory) : (s.bytes memory).length = s.size :=
  Memory.length_read ..

/-! ## Runs -/

section Runs

variable [Heap H]

theorem ofText_of_error {f : Failure}
    (h : (Heap.alloc headerSize .object).run m = .ok (.error f) m₁) :
    (ofText data).run m = .ok (.error f) m₁ := by
  simp [ofText, h]

theorem ofText_of_ok {obj : Nat} (h : (Heap.alloc headerSize .object).run m = .ok (.ok obj) m₁) :
    (ofText data).run m = .ok (.ok obj)
      { m₁ with memory := store ⟨m.memory.textLength data, data⟩ m₁.memory obj } := by
  simp [ofText, h]

theorem intText_of_error {value : Int32} {f : Failure}
    (h : (Heap.alloc intBufferSize .buffer).run m = .ok (.error f) m₁) :
    (intText value).run m = .ok (.error f) m₁ := by
  simp [intText, h]

theorem intText_of_ok {value : Int32} {buf : Nat}
    (h : (Heap.alloc intBufferSize .buffer).run m = .ok (.ok buf) m₁) :
    (intText value).run m = .ok (.ok buf)
      { m₁ with
        memory := m₁.memory.storeText buf intBufferSize (Numeral.signed value.toInt) } := by
  simp [intText, h]

end Runs

/-! ## Reading -/

def parse (s : StringObject) (scratch : Heap.Scratch) : Action H Int32 := do
  Action.modifyMemory fun m => m.write scratch.addr (s.bytes m)
  return Numeral.toInt32 ((← Action.memory).text scratch.addr)

theorem run_parse (s : StringObject) (scratch : Heap.Scratch) (m : Machine H) :
    (s.parse scratch).run m =
      let memory := m.memory.write scratch.addr (s.bytes m.memory)
      .ok (Numeral.toInt32 (memory.text scratch.addr)) { m with memory } := rfl

theorem toInt32_eq_withScratch [Heap H] (s : StringObject) :
    (s.toInt32 : Action H (Except Failure Int32)) = Heap.withScratch (s.size + 1) s.parse := rfl

theorem contained_parse (s : StringObject) (a : Nat) :
    Contained ⟨a, s.size + 1⟩ (s.parse ⟨a, s.size + 1⟩ : Action H Int32) := by
  intro m
  refine ⟨_, m.memory.write a (s.bytes m.memory), m.out, rfl, fun x hx => ?_⟩
  have hlen := s.length_bytes m.memory
  refine Memory.get_write_of_outside _ _ _ _ ?_
  simp only [Block.Covers] at hx
  omega

variable [Heap H] {Holds : List Block → Machine H → Prop} {live : List Block}

/-- Each byte of the object lies in a block that is held, or where no request can change it. -/
def Readable (s : StringObject) (live : List Block) (m : Machine H) : Prop :=
  ∀ x, Block.Covers ⟨s.data, s.size⟩ x → (∃ b ∈ live, b.Covers x) ∨ Heap.Spares m x

theorem Readable.bytes_eq (hH : Contract Holds) (hm : Holds live m) (hs : s.Readable live m)
    {bytes : Nat} {kind : Kind} (h : (Heap.alloc bytes kind).run m = .ok (.ok a) m₁) :
    s.bytes m₁.memory = s.bytes m.memory := by
  apply Memory.read_congr
  intro x hx
  rcases hs x hx with ⟨b, hb, hbx⟩ | hspares
  · exact (hH.alloc_of_ok hm h).2.1.get_eq b hb x hbx
  · exact hspares _ _ _ _ h

theorem toInt32_of_error {f : Failure}
    (h : (Heap.alloc (s.size + 1) .scratch).run m = .ok (.error f) m₁) :
    s.toInt32.run m = .ok (.error f) m₁ := by
  rw [toInt32_eq_withScratch]
  exact Heap.withScratch_of_error h

/-- The copy in the scratch block is followed by a zero byte: only bytes of the object are read. -/
theorem toInt32_of_ok (hH : Contract Holds) (hm : Holds live m) (hs : s.Readable live m)
    (h : (Heap.alloc (s.size + 1) .scratch).run m = .ok (.ok a) m₁) :
    ∃ m', s.toInt32.run m = .ok (.ok (Numeral.toInt32 (s.bytes m.memory).untilNul)) m' := by
  rcases hH.withScratch_cases hm (s.size + 1) s.contained_parse with ⟨m', ha, -⟩ |
    ⟨a', m₁', r, memory, out, m', ha, htop, hzero, -, hwork, hrun, -⟩
  · cases ha.symm.trans h
  · cases ha.symm.trans h
    rw [run_parse] at hwork
    have hbytes := hs.bytes_eq hH hm h
    have hlen : (s.bytes m.memory).length = s.size := s.length_bytes _
    have htext : (m₁.memory.write a (s.bytes m.memory)).text a = (s.bytes m.memory).untilNul := by
      apply Memory.text_eq_untilNul
      · exact Memory.read_write _ _ _ (by omega)
      · rw [Memory.get_write_of_outside _ _ _ _ (by omega)]
        exact hzero _ (by omega) (by omega)
    dsimp only at hwork
    rw [hbytes, htext] at hwork
    cases hwork
    exact ⟨m', hrun⟩

end StringObject

end HeapGuard
