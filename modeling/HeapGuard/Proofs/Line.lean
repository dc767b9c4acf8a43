import HeapGuard.Line
import HeapGuard.Proofs.Heap.Scratch
import HeapGuard.Proofs.Memory
import HeapGuard.Proofs.Source.Arena
import Mathlib.Data.List.TakeWhile

/-! # Printing a line

Three lengths are computed apart from each other: how much of the text is composed, how
much of that fits into the scratch block with a zero byte behind it, and how much is
written. They agree, so what goes to the stream is the start of the line and nothing else.
-/

namespace HeapGuard

namespace Memory

variable {m : Memory} {a capacity : Nat} {text : Bytes}

theorem get_storeText_of_outside {x : Nat} (hx : ¬ Block.Covers ⟨a, capacity⟩ x) :
    (m.storeText a capacity text).get x = m.get x := by
  unfold storeText
  split
  · rfl
  · refine get_write_of_outside _ _ _ _ ?_
    simp only [Block.Covers] at hx
    simp only [List.length_append, List.length_take, List.length_singleton]
    omega

theorem get_storeText {i : Nat} (htop : a + i < top)
    (hi : i < capacity - 1 ∨ i < capacity ∧ text.length < capacity) (hzero : m.get (a + i) = 0) :
    (m.storeText a capacity text).get (a + i) = text[i]?.getD 0 := by
  rw [storeText, if_neg (by omega), get_write, if_pos ⟨by omega, htop⟩, Nat.add_sub_cancel_left,
    hzero]
  rcases Nat.lt_or_ge i text.length with h | h
  · rw [List.getElem?_append_left (by rw [List.length_take]; omega),
      List.getElem?_take_of_lt (by omega)]
  · rw [List.getElem?_eq_none h, Option.getD_none, List.take_of_length_le (by omega),
      List.getElem?_append_right h]
    cases i - text.length <;> rfl

theorem read_storeText {k : Nat} (htop : a + capacity ≤ top)
    (hzero : ∀ x, a ≤ x → x < a + capacity → m.get x = 0)
    (hk : k ≤ capacity - 1 ∨ k ≤ capacity ∧ text.length < capacity) :
    (m.storeText a capacity text).read a k = (text ++ List.replicate k 0).take k := by
  apply List.ext_getElem
  · simp
  · intro i hi hi'
    rw [length_read] at hi
    have hget : (m.storeText a capacity text).get (a + i) = text[i]?.getD 0 :=
      get_storeText (by omega) (by omega) (hzero _ (by omega) (by omega))
    simp only [read_eq, List.getElem_map, List.getElem_range, hget, List.getElem_take,
      List.getElem_append]
    split
    · next h => rw [List.getElem?_eq_getElem h, Option.getD_some]
    · next h => rw [List.getElem?_eq_none (by omega), Option.getD_none, List.getElem_replicate]

end Memory

namespace Line

open Heap (Contract Contained Keeps)

variable {H : Type} {text : Bytes} {scratchSize : Nat}

def wanted (text : Bytes) : Nat := text.untilNul.length + 1

def fits (text : Bytes) (scratchSize : Nat) : Nat := min (wanted text) (scratchSize - 1)

/-- The bytes written: the composed line, and zeros if it should be too short. -/
def sent (text : Bytes) (scratchSize : Nat) : Bytes :=
  (compose text.untilNul scratchSize ++ List.replicate (fits text scratchSize) 0).take
    (fits text scratchSize)

/-- What the status of the write says about the line. -/
def verdict (text : Bytes) (scratchSize : Nat) (status : Int) : Except Failure Nat :=
  if status < 0 then .error (.write status)
  else if fits text scratchSize < wanted text then .error (.truncated status.toNat (wanted text))
  else .ok status.toNat

theorem verdict_ne_allocation {status : Int} (bytes : Nat) :
    verdict text scratchSize status ≠ .error (.allocation bytes) := by
  unfold verdict
  split
  · simp
  · split <;> simp

theorem length_compose_le (text : Bytes) (capacity : Nat) :
    (compose text capacity).length ≤ maxLength := by
  simp only [compose, maxText, maxLength, List.length_append, List.length_take,
    List.length_singleton]
  omega

/-- The text is cut before it is composed, so the length of the line can always be told. -/
theorem run_format (s : Heap.Scratch) (m : Machine H) :
    (format text s).run m = .ok ((compose text s.capacity).length : Int)
      { m with memory := m.memory.storeText s.addr s.capacity (compose text s.capacity) } := by
  simp [format, length_compose_le]

theorem run_send (fits : Nat) (s : Heap.Scratch) (m : Machine H) :
    (send text fits s).run m =
      let memory := m.memory.storeText s.addr s.capacity (compose text s.capacity)
      let bytes := memory.read s.addr fits
      .ok (m.out.write bytes).1 { m with memory, out := (m.out.write bytes).2 } := by
  have hlength : ¬ ((compose text s.capacity).length : Int) < 0 := by omega
  simp [send, run_format, hlength]

theorem contained_send (fits : Nat) (s : Heap.Scratch) :
    Contained s (send text fits s : Action H Int) := by
  intro m
  rw [run_send]
  exact ⟨_, _, _, rfl, fun x hx => Memory.get_storeText_of_outside hx⟩

theorem read_sent {memory : Memory} {a : Nat} (htop : a + scratchSize ≤ Memory.top)
    (hzero : ∀ x, a ≤ x → x < a + scratchSize → memory.get x = 0) :
    (memory.storeText a scratchSize (compose text.untilNul scratchSize)).read a
      (fits text scratchSize) = sent text scratchSize :=
  Memory.read_storeText htop hzero (.inl (Nat.min_le_right _ _))

variable [Heap H]

theorem print_eq (text : Bytes) (scratchSize : Nat) :
    (print text scratchSize : Action H (Except Failure Nat)) =
      Heap.withScratch scratchSize (send text.untilNul (fits text scratchSize)) >>= fun status =>
        pure (status.bind (verdict text scratchSize)) := by
  refine congrArg (Heap.withScratch scratchSize (send _ (fits text scratchSize)) >>= ·)
    (funext fun r => ?_)
  cases r with
  | error f => rfl
  | ok status =>
    simp only [Except.bind, verdict, apply_ite pure]
    rfl

/-- On any heap that keeps its contract: without a scratch block nothing is written; with one the
line goes to the stream in one write, and the block is given back. -/
theorem print_cases {Holds : List Block → Machine H → Prop} (hH : Contract Holds)
    {live : List Block} {m : Machine H} (hm : Holds live m) (text : Bytes) (scratchSize : Nat) :
    (∃ m', (Heap.alloc scratchSize .scratch).run m = .ok (.error (.allocation scratchSize)) m' ∧
      (print text scratchSize).run m = .ok (.error (.allocation scratchSize)) m' ∧
      Holds live m' ∧ Keeps live m m') ∨
    ∃ a m₁ m', (Heap.alloc scratchSize .scratch).run m = .ok (.ok a) m₁ ∧
      (print text scratchSize).run m =
        .ok (verdict text scratchSize (m.out.write (sent text scratchSize)).1) m' ∧
      Holds live m' ∧
      Keeps live { m with out := (m.out.write (sent text scratchSize)).2 } m' := by
  have hsend (a : Nat) : Contained ⟨a, scratchSize⟩
      (send text.untilNul (fits text scratchSize) ⟨a, scratchSize⟩ : Action H Int) :=
    contained_send _ _
  rcases hH.withScratch_cases hm scratchSize hsend with ⟨m', ha, hw, hm', hk⟩ |
    ⟨a, m₁, status, memory, out, m', ha, htop, hzero, hout, hwork, hw, hm', hk⟩
  · left
    refine ⟨m', ha, ?_, hm', hk⟩
    rw [print_eq, EStateM.run_bind, hw]
    rfl
  · right
    rw [run_send] at hwork
    dsimp only at hwork
    rw [read_sent htop hzero, hout] at hwork
    obtain ⟨hstatus, hmachine⟩ := EStateM.Result.ok.inj hwork
    have hwritten : (m.out.write (sent text scratchSize)).2 = out := congrArg Machine.out hmachine
    refine ⟨a, m₁, m', ha, ?_, hm', hwritten ▸ hk⟩
    rw [print_eq, EStateM.run_bind, hw, hstatus]
    rfl

/-- The first `k` bytes of the line went to the stream in one write. The result says how the stream
answered, and whether that was less than the line. -/
structure Delivered (line : Bytes) (k : Nat) (before after : Stream) (status : Int)
    (result : Except Failure Nat) : Prop where
  status_eq : status = before.reply before.writes (line.take k)
  once : after = { before with writes := ⟨line.take k, status⟩ :: before.writes }
  no_nul : 0 ∉ line.take k
  write_iff : result = .error (.write status) ↔ status < 0
  truncated_iff :
    result = .error (.truncated status.toNat line.length) ↔ 0 ≤ status ∧ k < line.length
  ok_iff : result = .ok status.toNat ↔ 0 ≤ status ∧ line.length ≤ k

omit [Heap H]

theorem sent_eq_take (hn : text.untilNul.length ≤ maxText) :
    sent text scratchSize = (text.untilNul ++ [10]).take (fits text scratchSize) := by
  unfold sent compose
  have hfits : fits text scratchSize ≤ scratchSize - 1 := Nat.min_le_right _ _
  have hwanted : fits text scratchSize ≤ text.untilNul.length + 1 := Nat.min_le_left _ _
  rcases Nat.lt_or_ge scratchSize text.untilNul.length with h | h
  · -- the text is cut to the scratch block, and less than that is written
    rw [Nat.min_eq_left (by omega), List.append_assoc,
      List.take_append_of_le_length (by rw [List.length_take]; omega), List.take_take,
      Nat.min_eq_left (by omega), List.take_append_of_le_length (by omega)]
  · have hall : text.untilNul.take (min scratchSize maxText) = text.untilNul :=
      List.take_of_length_le (by omega)
    rw [hall, List.take_append_of_le_length]
    simpa using hwanted

theorem sent_of_whole (hnul : 0 ∉ text) (hn : text.length ≤ maxText)
    (hsize : text.length + 2 ≤ scratchSize) : sent text scratchSize = text ++ [10] := by
  have htext : text.untilNul = text := Bytes.untilNul_eq_self hnul
  rw [sent_eq_take (by rwa [htext]), htext, List.take_of_length_le]
  simp only [fits, wanted, htext, List.length_append, List.length_singleton]
  omega

/-- The line break of a text that is too long stands where the text goes on. -/
theorem getElem?_sent_of_long (hnul : 0 ∉ text) (hn : maxText < text.length)
    (hsize : text.length + 2 ≤ scratchSize) : (sent text scratchSize)[maxText]? = some 10 := by
  have htext : text.untilNul = text := Bytes.untilNul_eq_self hnul
  have hfits : maxText < fits text scratchSize := by
    simp only [fits, wanted, htext]
    omega
  have hcut : (text.take (min scratchSize maxText)).length = maxText := by
    rw [List.length_take]
    omega
  rw [sent, List.getElem?_take_of_lt hfits, htext, compose,
    List.getElem?_append_left (by rw [List.length_append, hcut]; exact Nat.lt_succ_self _),
    List.getElem?_append_right hcut.le, hcut, Nat.sub_self]
  rfl

theorem zero_notMem_take (k : Nat) : 0 ∉ (text.untilNul ++ [10]).take k := by
  intro h
  rcases List.mem_append.mp (List.mem_of_mem_take h) with h | h
  · simpa using List.mem_takeWhile_imp h
  · simp at h

theorem delivered (hn : text.untilNul.length ≤ maxText) (out : Stream) :
    Delivered (text.untilNul ++ [10]) (fits text scratchSize) out
      (out.write (sent text scratchSize)).2 (out.write (sent text scratchSize)).1
      (verdict text scratchSize (out.write (sent text scratchSize)).1) := by
  have hlen : (text.untilNul ++ [10]).length = wanted text := List.length_append
  rw [sent_eq_take hn]
  generalize hs : out.write ((text.untilNul ++ [10]).take (fits text scratchSize)) = answer
  constructor
  · rw [← hs]; rfl
  · rw [← hs]; rfl
  · exact zero_notMem_take _
  all_goals
    rw [verdict]
    grind

variable [Heap H]

/-- Whatever the text, the size of the scratch block, the heap and the stream: a line that a scratch
block was had for is written at once, cut to what fits with a zero byte behind it. -/
theorem print_delivers {Holds : List Block → Machine H → Prop} (hH : Contract Holds)
    {live : List Block} {m : Machine H} (hm : Holds live m) (text : Bytes) (scratchSize : Nat)
    (hn : text.untilNul.length ≤ 2 ^ 31 - 2) :
    let k := min (text.untilNul.length + 1) (scratchSize - 1)
    (∃ m', (Heap.alloc scratchSize .scratch).run m = .ok (.error (.allocation scratchSize)) m' ∧
      (print text scratchSize).run m = .ok (.error (.allocation scratchSize)) m' ∧
      m'.out = m.out) ∨
    ∃ a m₁ m' status result, (Heap.alloc scratchSize .scratch).run m = .ok (.ok a) m₁ ∧
      (print text scratchSize).run m = .ok result m' ∧
      Delivered (text.untilNul ++ [10]) k m.out m'.out status result := by
  rcases print_cases hH hm text scratchSize with
    ⟨m', ha, hrun, -, hk⟩ | ⟨a, m₁, m', ha, hrun, -, hk⟩
  · left
    exact ⟨m', ha, hrun, hk.out_eq⟩
  · right
    refine ⟨a, m₁, m', (m.out.write (sent text scratchSize)).1, _, ha, hrun, ?_⟩
    rw [hk.out_eq]
    exact delivered hn m.out

theorem print_delivers_cut :
    let m := Plain.onPage
    Plain.Holds .page [] m ∧
      ∃ m' status result, (print [97, 98, 0, 99] 3).run m = .ok result m' ∧
        Delivered [97, 98, 10] 2 m.out m'.out status result := by
  intro m
  rcases print_delivers (Plain.contract Arena.lawful_page) Plain.holds_onPage [97, 98, 0, 99] 3
    (by decide) with ⟨m', ha, -⟩ | ⟨a, m₁, m', status, result, -, hrun, hd⟩
  · cases ha
  · exact ⟨Plain.holds_onPage, m', status, result, hrun, hd⟩

end Line

end HeapGuard
