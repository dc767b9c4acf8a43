import HeapGuard.Proofs.Line
import HeapGuard.Proofs.Numeral.Decimal
import HeapGuard.Proofs.Source.Arena
import HeapGuard.Proofs.StringObject.Operations

/-! # Integers as string objects

On any heap that keeps its contract, the integer read from a string object depends on the
bytes of the object alone, and its text is stored in a block that nothing else of the
program sees. So an integer comes back from its text unchanged.
-/

namespace HeapGuard

open Heap (Contract)
open Numeral (signed IsSigned ReadsAs)

namespace Memory

variable {m m' : Memory} {a capacity : Nat} {text : Bytes}

/-- The text stands at the start of a block and has zeros behind it up to the block's end. -/
def HoldsText (m : Memory) (a capacity : Nat) (text : Bytes) : Prop :=
  m.read a capacity = text ++ List.replicate (capacity - text.length) 0

theorem holdsText_storeText (htop : a + capacity ≤ top)
    (hzero : ∀ x, a ≤ x → x < a + capacity → m.get x = 0) (hlen : text.length < capacity) :
    (m.storeText a capacity text).HoldsText a capacity text := by
  unfold HoldsText
  rw [read_storeText htop hzero (.inr ⟨Nat.le_refl _, hlen⟩), List.take_append,
    List.take_of_length_le (Nat.le_of_lt hlen), List.take_replicate, Nat.min_eq_left (by omega)]

theorem HoldsText.congr (h : m.HoldsText a capacity text)
    (hm : ∀ x, Block.Covers ⟨a, capacity⟩ x → m'.get x = m.get x) :
    m'.HoldsText a capacity text :=
  (read_congr hm).trans h

theorem HoldsText.read_eq (h : m.HoldsText a capacity text) (hlen : text.length < capacity) :
    m.read a text.length = text := by
  unfold HoldsText at h
  generalize hb : text ++ List.replicate (capacity - text.length) 0 = block at h
  have hall : block.length = capacity := by
    rw [← hb, List.length_append, List.length_replicate]
    omega
  have hread : m.read (a + 0) text.length = (block.drop 0).take text.length :=
    read_inside (by omega) (hall.symm ▸ h)
  rwa [Nat.add_zero, List.drop_zero, ← hb, List.take_left] at hread

theorem HoldsText.text_eq (h : m.HoldsText a capacity text) (hlen : text.length < capacity)
    (hnul : 0 ∉ text) : m.text a = text := by
  rw [text_eq_untilNul (h.read_eq hlen), Bytes.untilNul_eq_self hnul]
  have hget := getElem?_read m a hlen
  rw [h, List.getElem?_append_right (Nat.le_refl _), Nat.sub_self,
    List.getElem?_replicate_of_lt (by omega), Option.some_inj] at hget
  exact hget.symm

end Memory

namespace StringObject

variable {H : Type} [Heap H] {Holds : List Block → Machine H → Prop} {live : List Block}
  {m : Machine H}

theorem toInt32_cases (hH : Contract Holds) (hm : Holds live m) (s : StringObject)
    (hs : s.Readable live m) :
    (∃ m₁, (Heap.alloc (s.size + 1) .scratch).run m = .ok (.error (.allocation (s.size + 1))) m₁ ∧
      s.toInt32.run m = .ok (.error (.allocation (s.size + 1))) m₁) ∨
    ∃ a m₁ m', (Heap.alloc (s.size + 1) .scratch).run m = .ok (.ok a) m₁ ∧
      s.toInt32.run m = .ok (.ok (Numeral.toInt32 (s.bytes m.memory).untilNul)) m' := by
  rcases hH.alloc_cases hm (s.size + 1) .scratch with ⟨m₁, ha, -⟩ | ⟨a, m₁, ha, -⟩
  · left
    exact ⟨m₁, ha, toInt32_of_error ha⟩
  · right
    obtain ⟨m', hrun⟩ := toInt32_of_ok hH hm hs ha
    exact ⟨a, m₁, m', ha, hrun⟩

/-- The value read from an object is the integer at the start of its bytes, and no other state of
the heap in which the object has the same bytes gives another one. -/
theorem toInt32_readsAs (hH : Contract Holds) (hm : Holds live m) (s : StringObject)
    (hs : s.Readable live m) :
    let b := s.bytes m.memory
    (∃ m₁, (Heap.alloc (b.length + 1) .scratch).run m =
        .ok (.error (.allocation (b.length + 1))) m₁ ∧
      s.toInt32.run m = .ok (.error (.allocation (b.length + 1))) m₁) ∨
    ∃ a m₁ v m', (Heap.alloc (b.length + 1) .scratch).run m = .ok (.ok a) m₁ ∧
      s.toInt32.run m = .ok (.ok v) m' ∧ ReadsAs b.untilNul v ∧
      ∀ live₂ m₂, Holds live₂ m₂ → s.Readable live₂ m₂ → s.bytes m₂.memory = b →
        ∀ v₂ m₂', s.toInt32.run m₂ = .ok (.ok v₂) m₂' → v₂ = v := by
  intro b
  have hlen : b.length = s.size := s.length_bytes _
  rw [hlen]
  rcases toInt32_cases hH hm s hs with h | ⟨a, m₁, m', ha, hrun⟩
  · exact .inl h
  · right
    refine ⟨a, m₁, _, m', ha, hrun, Numeral.readsAs_toInt32 _, ?_⟩
    intro live₂ m₂ hm₂ hs₂ hb v₂ m₂' hrun₂
    rcases toInt32_cases hH hm₂ s hs₂ with ⟨_, -, hrun'⟩ | ⟨_, _, _, -, hrun'⟩
    · cases hrun'.symm.trans hrun₂
    · cases hrun'.symm.trans hrun₂
      rw [hb]

theorem spares_of_outside {limit : Nat} {failing : List Nat} {reuse : Bool}
    {m : Machine (Plain Arena)} (hm : Plain.Holds (.new limit failing reuse) live m) {x : Nat}
    (hx : x < Arena.base ∨ Arena.base + limit ≤ x) : Heap.Spares m x := by
  obtain ⟨log, hr, -⟩ := hm
  intro bytes kind r m' hrun
  have hget := Arena.get_alloc_of_outside hr (max bytes 1) m.memory kind hx
  have hmemory : m'.memory = (m.heap.source.alloc m.memory (max bytes 1) kind).2.2 := by
    rcases ha : m.heap.source.alloc m.memory (max bytes 1) kind with ⟨_ | a, source, memory⟩
    all_goals
      simp only [Heap.alloc, Heap.allocZeroed, BlockSource.alloc] at hrun
      simp [ha] at hrun
      rw [← hrun.2]
  rw [hmemory, hget]

theorem toInt32_readsAs_outside :
    let m : Machine (Plain Arena) :=
      { Plain.onPage with memory := Memory.zeroed.write 4096 [32, 45, 55, 0, 56] }
    let s : StringObject := ⟨5, 4096⟩
    Plain.Holds .page [] m ∧ s.Readable [] m ∧
      ∃ v m', s.toInt32.run m = .ok (.ok v) m' ∧ ReadsAs [32, 45, 55] v := by
  intro m s
  have hm : Plain.Holds .page [] m := ⟨[], .start, .nil⟩
  have hs : s.Readable [] m := by
    intro x hx
    right
    apply spares_of_outside hm
    left
    exact Nat.lt_trans hx.2 (by decide)
  have hb : s.bytes m.memory = [32, 45, 55, 0, 56] := by decide
  have h := toInt32_readsAs (Plain.contract Arena.lawful_page) hm s hs
  rw [hb] at h
  rcases h with ⟨m₁, ha, -⟩ | ⟨a, m₁, v, m', -, hrun, hv, -⟩
  · cases ha
  · exact ⟨hm, hs, v, m', hrun, hv⟩

theorem length_signed_int32 (v : Int32) : (signed v.toInt).length ≤ 11 := by
  have hl := v.le_toInt
  have hu := v.toInt_lt
  exact Numeral.length_signed_le (k := 10) (by decide) (by omega)

section Written

variable {v : Int32} {buf obj : Nat} {mₐ m₁ mₒ : Machine H}

theorem intText_holdsText (hH : Contract Holds) (hm : Holds live m)
    (ha : (Heap.alloc intBufferSize .buffer).run m = .ok (.ok buf) mₐ) :
    ∃ m₁, (intText v).run m = .ok (.ok buf) m₁ ∧ Holds (⟨buf, intBufferSize⟩ :: live) m₁ ∧
      m₁.memory.HoldsText buf intBufferSize (signed v.toInt) ∧
      ∀ x, ¬ Block.Covers ⟨buf, intBufferSize⟩ x → m₁.memory.get x = mₐ.memory.get x := by
  obtain ⟨hmₐ, -, hzero⟩ := hH.alloc_of_ok hm ha
  have hframe : ∀ x, ¬ Block.Covers ⟨buf, intBufferSize⟩ x →
      (mₐ.memory.storeText buf intBufferSize (signed v.toInt)).get x = mₐ.memory.get x :=
    fun x hx => Memory.get_storeText_of_outside hx
  have hlen := length_signed_int32 v
  refine ⟨_, intText_of_ok ha, hH.write hmₐ List.mem_cons_self hframe, ?_, hframe⟩
  apply Memory.holdsText_storeText
  · exact hH.within hmₐ _ List.mem_cons_self
  · exact fun x hl hu => hzero x ⟨hl, hu⟩
  · exact Nat.lt_of_le_of_lt hlen (by decide)

/-- An object on a block with a text has the text for its bytes. -/
theorem ofText_of_holdsText {data capacity : Nat} {text : Bytes} (hH : Contract Holds)
    (hm : Holds (⟨data, capacity⟩ :: live) m) (hdata : 0 < data) (hlen : text.length < capacity)
    (hnul : 0 ∉ text) (ht : m.memory.HoldsText data capacity text)
    (ha : (Heap.alloc headerSize .object).run m = .ok (.ok obj) mₒ) :
    ∃ m', (ofText data).run m = .ok (.ok obj) m' ∧
      Holds (⟨obj, headerSize⟩ :: ⟨data, capacity⟩ :: live) m' ∧
      load m'.memory obj = ⟨text.length, data⟩ ∧
      (load m'.memory obj).bytes m'.memory = text := by
  obtain ⟨hmₒ, hk, -⟩ := hH.alloc_of_ok hm ha
  have hframe : ∀ x, ¬ Block.Covers ⟨obj, headerSize⟩ x →
      (store ⟨m.memory.textLength data, data⟩ mₒ.memory obj).get x = mₒ.memory.get x :=
    fun x hx => get_store_of_outside hx
  have hfit := hH.within hmₒ _ (List.mem_cons_of_mem _ List.mem_cons_self)
  have htext : m.memory.textLength data = text.length := by
    rw [← Memory.length_text, ht.text_eq hlen hnul]
  have hload : load (store ⟨text.length, data⟩ mₒ.memory obj) obj = ⟨text.length, data⟩ := by
    dsimp only at hfit
    apply load_store (hH.within hmₒ _ List.mem_cons_self)
    · dsimp only
      omega
    · dsimp only
      omega
  rw [htext] at hframe
  refine ⟨_, ofText_of_ok ha, hH.write hmₒ List.mem_cons_self ?_, ?_, ?_⟩
  · rwa [htext]
  · rw [htext]
    exact hload
  · have hkeep : (store ⟨text.length, data⟩ mₒ.memory obj).HoldsText data capacity text := by
      apply ht.congr
      intro x hx
      have hap := (List.pairwise_cons.mp (hH.apart hmₒ)).1 _ List.mem_cons_self
      rw [hframe x (hap.symm.not_covers hx), hk.get_eq _ List.mem_cons_self x hx]
    rw [htext, hload, bytes, size, if_neg hdata.ne']
    exact hkeep.read_eq hlen

end Written

/-- The text of an integer is stored whole in its block, the object on it has this text for its
bytes, and reading the object gives the integer back. -/
theorem intText_roundTrip (hH : Contract Holds)
    (hpos : ∀ {live m}, Holds live m → ∀ b ∈ live, 0 < b.addr) (hm : Holds live m) (v : Int32) :
    let text := signed v.toInt
    (IsSigned v.toInt text ∧ 1 ≤ text.length ∧ text.length ≤ 11 ∧
      ∀ w : Int32, signed w.toInt = text → w = v) ∧
    ∀ buf mₐ, (Heap.alloc 17 .buffer).run m = .ok (.ok buf) mₐ →
      ∃ m₁, (intText v).run m = .ok (.ok buf) m₁ ∧
        m₁.memory.read buf 17 = text ++ List.replicate (17 - text.length) 0 ∧
        (∀ x, ¬ Block.Covers ⟨buf, 17⟩ x → m₁.memory.get x = mₐ.memory.get x) ∧
        ∀ obj mₒ, (Heap.alloc 16 .object).run m₁ = .ok (.ok obj) mₒ →
          ∃ m₂, (ofText buf).run m₁ = .ok (.ok obj) m₂ ∧
            load m₂.memory obj = ⟨text.length, buf⟩ ∧
            (load m₂.memory obj).bytes m₂.memory = text ∧
            ∀ a mₛ, (Heap.alloc (text.length + 1) .scratch).run m₂ = .ok (.ok a) mₛ →
              ∃ m₃, (load m₂.memory obj).toInt32.run m₂ = .ok (.ok v) m₃ := by
  intro text
  have hle : text.length ≤ 11 := length_signed_int32 v
  have hnul : 0 ∉ text := Numeral.zero_notMem_signed _
  have hlen : text.length < intBufferSize := Nat.lt_of_le_of_lt hle (by decide)
  constructor
  · refine ⟨Numeral.isSigned_signed _, Numeral.length_signed_pos _, hle, fun w hw => ?_⟩
    rw [← Numeral.toInt32_signed w, hw, Numeral.toInt32_signed]
  intro buf mₐ ha
  obtain ⟨m₁, hrun₁, hm₁, htext, hframe⟩ := intText_holdsText hH hm ha
  refine ⟨m₁, hrun₁, htext, hframe, ?_⟩
  intro obj mₒ ho
  have hbuf : 0 < buf := hpos hm₁ _ List.mem_cons_self
  obtain ⟨m₂, hrun₂, hm₂, hload, hbytes⟩ :=
    ofText_of_holdsText hH hm₁ hbuf hlen hnul htext ho
  refine ⟨m₂, hrun₂, hload, hbytes, ?_⟩
  rw [hload] at hbytes ⊢
  intro a mₛ hs
  have hsize : size ⟨text.length, buf⟩ = text.length := if_neg hbuf.ne'
  have hread : Readable ⟨text.length, buf⟩
      (⟨obj, headerSize⟩ :: ⟨buf, intBufferSize⟩ :: live) m₂ := by
    intro x hx
    rw [hsize] at hx
    refine .inl ⟨_, List.mem_cons_of_mem _ List.mem_cons_self, hx.1, ?_⟩
    exact Nat.lt_trans hx.2 (Nat.add_lt_add_left hlen _)
  rw [← hsize] at hs
  obtain ⟨m₃, hrun₃⟩ := toInt32_of_ok hH hm₂ hread hs
  rw [hbytes, Bytes.untilNul_eq_self hnul, Numeral.toInt32_signed] at hrun₃
  exact ⟨m₃, hrun₃⟩

theorem intText_roundTrip_least :
    let m := Plain.onPage
    Plain.Holds .page [] m ∧
      ∃ buf m₁ obj m₂ m₃, (intText Int32.minValue).run m = .ok (.ok buf) m₁ ∧
        (ofText buf).run m₁ = .ok (.ok obj) m₂ ∧
        (load m₂.memory obj).toInt32.run m₂ = .ok (.ok Int32.minValue) m₃ := by
  intro m
  have hs := Arena.lawful_page
  have hlen : (signed Int32.minValue.toInt).length = 11 := by decide +kernel
  obtain ⟨-, hwrite⟩ :=
    intText_roundTrip (Plain.contract hs) (Plain.addr_pos hs) Plain.holds_onPage Int32.minValue
  obtain ⟨m₁, hrun₁, -, -, hwrap⟩ := hwrite _ _ rfl
  obtain ⟨-, rfl⟩ := EStateM.Result.ok.inj (hrun₁.symm.trans (intText_of_ok rfl))
  obtain ⟨m₂, hrun₂, -, -, hread⟩ := hwrap _ _ rfl
  obtain ⟨-, rfl⟩ := EStateM.Result.ok.inj (hrun₂.symm.trans (ofText_of_ok rfl))
  obtain ⟨m₃, hrun₃⟩ := hread _ _ (by rw [hlen]; rfl)
  exact ⟨Plain.holds_onPage, _, _, _, _, m₃, hrun₁, hrun₂, hrun₃⟩

end StringObject

end HeapGuard
