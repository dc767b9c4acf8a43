import HeapGuard.Proofs.Guarded.Answers
import HeapGuard.Proofs.Program.Printing

/-! # Objects for texts

An object refers to a text that it does not own. Making it, printing it and releasing it
leave the block with the text alone: the block is live before and after, with the same
bytes, and can be released whenever nothing was written around it.
-/

namespace HeapGuard

open BlockSource (Lawful)
open Guarded (Accounted Holds Undisturbed Intact Grants)
open Heap (Keeps)
open RedZone (width)
open StringObject (headerSize load)
open scoped List

/-- A text of `len` bytes and the NUL behind it lie among the user bytes of the entry. -/
structure Entry.HasText (e : Entry) (memory : Memory) (p len : Nat) : Prop where
  le_start : e.addr ≤ p
  end_lt : p + len < e.addr + e.size
  nul : memory.get (p + len) = 0
  no_nul : ∀ i, i < len → memory.get (p + i) ≠ 0

namespace Entry.HasText

variable {e : Entry} {memory memory' : Memory} {p len : Nat} {live : List Entry}

theorem textLength_add (h : e.HasText memory p len) {j : Nat} (hj : j ≤ len) :
    memory.textLength (p + j) = len - j := by
  have hnul : memory.findNul (p + j) = p + len := by
    apply Memory.findNul_eq (by omega) h.nul
    intro y hy hlt
    obtain ⟨i, rfl⟩ := Nat.exists_eq_add_of_le (Nat.le_of_add_right_le hy)
    exact h.no_nul i (by omega)
  rw [Memory.textLength, hnul]
  omega

theorem zero_notMem_read (h : e.HasText memory p len) : 0 ∉ memory.read p len := by
  intro hmem
  rw [Memory.read_eq, List.mem_map] at hmem
  obtain ⟨i, hi, hget⟩ := hmem
  exact h.no_nul i (List.mem_range.mp hi) hget

theorem read_eq (h : e.HasText memory p len) (he : e ∈ live)
    (hu : Undisturbed live memory memory') : memory'.read p len = memory.read p len := by
  apply Memory.read_congr
  intro x hx
  apply hu e he x
  apply Guarded.covers_extent_of_user
  have hl := h.le_start
  have hr := h.end_lt
  simp only [Block.Covers, Entry.user] at hx ⊢
  omega

end Entry.HasText

namespace Program

variable {N : Nat} {S : Type} [BlockSource S] {s₀ : S} {log : List Arena.Event}
  {live rest : List Entry} {m m₁ : Machine (Guarded N S)} {e : Entry} {obj p len : Nat}

theorem ofText_cases (hN : 0 < N) (hs : Lawful s₀) (h : Accounted s₀ log live m) {memory : Memory}
    {held : List Block} (hm : Holds s₀ rest memory held m) {data : Nat} (h₀ : 0 < data)
    (hdata : data < Memory.top) :
    (∃ m', (StringObject.ofText data).run m = .ok (.error (.allocation 16)) m' ∧
      Holds s₀ rest memory held m' ∧ Keeps held m m' ∧
      (Grants m 16 .object → N ≤ live.length)) ∨
    ∃ obj m' log', (StringObject.ofText data).run m = .ok (.ok obj) m' ∧
      Accounted s₀ log' (⟨obj, 16, .object⟩ :: live) m' ∧
      Holds s₀ rest memory (⟨obj, 16⟩ :: held) m' ∧ Keeps held m m' ∧
      load m'.memory obj = ⟨m.memory.textLength data, data⟩ ∧ live.length < N := by
  have hH := Guarded.contract hN hs rest memory
  have hfits : max headerSize 1 + 2 * width < Memory.top := by decide
  rcases h.alloc_held hN hs hm hfits .object with
    ⟨m', hrun, hrest⟩ | ⟨obj, mₒ, log', hrun, h', hmₒ, hk, hroom⟩
  · left
    exact ⟨m', StringObject.ofText_of_error hrun, hrest⟩
  · right
    have hframe : ∀ x, ¬ Block.Covers ⟨obj, headerSize⟩ x →
        (StringObject.store ⟨m.memory.textLength data, data⟩ mₒ.memory obj).get x =
          mₒ.memory.get x :=
      fun x hx => StringObject.get_store_of_outside hx
    refine ⟨obj, _, _, StringObject.ofText_of_ok hrun, h'.of_heap_eq rfl,
      hH.write hmₒ List.mem_cons_self hframe, ⟨?_, ?_⟩, ?_, hroom⟩
    · rw [hk.eq_with]
    · intro b hb x hx
      have hap := (List.pairwise_cons.mp (hH.apart hmₒ)).1 b hb
      rw [hframe x (hap.symm.not_covers hx), hk.get_eq b hb x hx]
    · exact StringObject.load_store (hH.within hmₒ _ List.mem_cons_self)
        (Memory.textLength_lt h₀ (Nat.le_of_lt hdata)) hdata

/-- The live blocks and their bytes are those of the first machine, and the block of the entry can
be released if and only if its zones were intact there. -/
structure Detached (m : Machine (Guarded N S)) (e : Entry) (m' : Machine (Guarded N S)) :
    Prop where
  entries_perm : m'.heap.ledger.entries ~ m.heap.ledger.entries
  undisturbed : Undisturbed m.heap.ledger.entries m.memory m'.memory
  release_iff : (∃ m'', (Guarded.tryRelease e.addr).run m' = .ok (.ok ()) m'') ↔
    Intact [e] m.memory

/-- The object at `obj` refers to the text of `len` bytes at `p`, in the block of the entry. -/
structure Wraps (m : Machine (Guarded N S)) (e : Entry) (p len obj : Nat)
    (m₁ : Machine (Guarded N S)) : Prop where
  load_eq : load m₁.memory obj = ⟨len, p⟩
  bytes_eq : (load m₁.memory obj).bytes m₁.memory = m.memory.read p len
  no_nul : 0 ∉ m.memory.read p len
  entries_perm : m₁.heap.ledger.entries ~ ⟨obj, 16, .object⟩ :: m.heap.ledger.entries
  undisturbed : Undisturbed m.heap.ledger.entries m.memory m₁.memory
  /-- The object can be released right away. -/
  release : ∃ m', (Heap.release obj).run m₁ = .ok () m' ∧ Detached m e m'
  /-- Printed on a scratch block that is large enough, all of the text goes to the stream, and then
  the object can be released. -/
  print : ∀ size, len + 2 ≤ size →
    (∃ m₂, (Heap.alloc size .scratch).run m₁ = .ok (.error (.allocation size)) m₂ ∧
      (Line.print ((load m₁.memory obj).bytes m₁.memory) size).run m₁ =
        .ok (.error (.allocation size)) m₂ ∧ m₂.out = m₁.out) ∨
    ∃ a mₛ result m₂, (Heap.alloc size .scratch).run m₁ = .ok (.ok a) mₛ ∧
      (Line.print ((load m₁.memory obj).bytes m₁.memory) size).run m₁ = .ok result m₂ ∧
      (len ≤ 2 ^ 31 - 2 → m₁.out.Hears m₂.out [m.memory.read p len ++ [10]]) ∧
      ∃ m', (Heap.release obj).run m₂ = .ok () m' ∧ Detached m e m'

section Wraps

variable (hN : 0 < N) (hs : Lawful s₀) (he : e ∈ m.heap.ledger.entries)
include hN hs he

theorem exists_detached (hm₁ : Holds s₀ m.heap.ledger.entries m.memory [⟨obj, 16⟩] m₁) :
    ∃ m', (Heap.release obj).run m₁ = .ok () m' ∧ Detached m e m' := by
  have hH := Guarded.contract hN hs m.heap.ledger.entries m.memory
  obtain ⟨m', hrun, hm', -⟩ := hH.release hm₁
  obtain ⟨log', h', hu⟩ := hm'.accounted
  refine ⟨m', hrun, h'.entries_perm, hu, ?_⟩
  rw [h'.tryRelease_ok_iff hN hs he]
  have hu₁ : Undisturbed [e] m.memory m'.memory := hu.mono (by simpa using he)
  constructor
  · intro hz
    exact hz.of_undisturbed fun d hd x hx => (hu₁ d hd x hx).symm
  · intro hz
    exact hz.of_undisturbed hu₁

theorem wraps (h : Accounted s₀ log m.heap.ledger.entries m) (ht : e.HasText m.memory p len)
    (hrun : (StringObject.ofText p).run m = .ok (.ok obj) m₁) : Wraps m e p len obj m₁ := by
  have hH := Guarded.contract hN hs m.heap.ledger.entries m.memory
  have hbounds := h.bounds hs he
  have hl := ht.le_start
  have hr := ht.end_lt
  have h₀ : 0 < p := by omega
  have hp : p < Memory.top := by omega
  rcases ofText_cases hN hs h h.holds h₀ hp with
    ⟨_, hno, -⟩ | ⟨_, _, log', hok, h₁, hm₁, -, hload, -⟩
  · cases hno.symm.trans hrun
  cases hok.symm.trans hrun
  have hu := hm₁.undisturbed
  have hlen : m.memory.textLength p = len := ht.textLength_add (Nat.zero_le len)
  rw [hlen] at hload
  have hbytes : (load m₁.memory obj).bytes m₁.memory = m.memory.read p len := by
    rw [hload, StringObject.bytes, StringObject.size, if_neg h₀.ne']
    exact ht.read_eq he hu
  refine ⟨hload, hbytes, ht.zero_notMem_read, h₁.entries_perm, hu,
    exists_detached hN hs he hm₁, ?_⟩
  intro size hsize
  rw [hbytes]
  rcases Line.print_cases hH hm₁ (m.memory.read p len) size with
    ⟨m₂, ha, hprint, -, hk⟩ | ⟨a, mₛ, m₂, ha, hprint, hm₂, hk⟩
  · left
    exact ⟨m₂, ha, hprint, hk.out_eq⟩
  · right
    refine ⟨a, mₛ, _, m₂, ha, hprint, fun hlong => ?_, exists_detached hN hs he hm₂⟩
    have hwhole : Line.sent (m.memory.read p len) size = m.memory.read p len ++ [10] := by
      apply Line.sent_of_whole ht.zero_notMem_read
      · rwa [Memory.length_read]
      · rwa [Memory.length_read]
    rw [hk.out_eq, hwhole]
    exact m₁.out.hears_writeAll [m.memory.read p len ++ [10]]

end Wraps

/-- In every state of a heap, for every text in a live block: its length is found from any of its
bytes, and an object for it leaves the text and its block alone, from its making to its release. -/
theorem ofText_wraps (hN : 0 < N) (hs : Lawful s₀) (hm : Reachable s₀ m)
    (he : e ∈ m.heap.ledger.entries) (ht : e.HasText m.memory p len) :
    (∀ j, j ≤ len → m.memory.textLength (p + j) = len - j) ∧
      ∀ obj m₁, (StringObject.ofText p).run m = .ok (.ok obj) m₁ → Wraps m e p len obj m₁ := by
  obtain ⟨log, h⟩ := hm.accounted hN hs
  constructor
  · intro j hj
    exact ht.textLength_add hj
  · intro obj m₁ hrun
    exact wraps hN hs he h ht hrun

theorem ofText_wraps_inside :
    let m := (Guarded.play (Guarded.onPage 3) [.write (Arena.base + 17) [104, 105], .alloc 8 .buffer]).2
    let e : Entry := ⟨Arena.base + 16, 8, .buffer⟩
    e ∈ m.heap.ledger.entries ∧ e.HasText m.memory (Arena.base + 17) 2 ∧
      ∃ obj m₁, (StringObject.ofText (Arena.base + 17)).run m = .ok (.ok obj) m₁ ∧
        Wraps m e (Arena.base + 17) 2 obj m₁ := by
  intro m e
  have hm : Reachable .page m := .play rfl _
  have he : e ∈ m.heap.ledger.entries := by decide +kernel
  have ht : e.HasText m.memory (Arena.base + 17) 2 :=
    ⟨by decide, by decide, by decide +kernel, by decide +kernel⟩
  obtain ⟨m₁, hrun⟩ : ∃ m₁,
      (StringObject.ofText (Arena.base + 17)).run m = .ok (.ok (Arena.base + 64)) m₁ :=
    Action.exists_run_of_answer (by decide +kernel)
  exact ⟨he, ht, _, m₁, hrun, (ofText_wraps (by decide) Arena.lawful_page hm he ht).2 _ m₁ hrun⟩

/-- Printing needs a slot of the ledger and cuts long texts, and a block with a byte written behind
it cannot be released, whatever became of the object. -/
theorem text_not_printed_nor_released :
    let e : Entry := ⟨Arena.base + 16, 3, .buffer⟩
    let m := (Guarded.play (Guarded.onPage 2) [.write e.addr [104, 105], .alloc 3 .buffer]).2
    let m' := (Guarded.play (Guarded.onPage 2)
      [.write e.addr [104, 105, 0, 0], .alloc 3 .buffer]).2
    let text : Bytes := List.replicate (2 ^ 31 - 1) 97
    (e ∈ m.heap.ledger.entries ∧ e.HasText m.memory e.addr 2 ∧
      ∃ obj m₁ m₂, (StringObject.ofText e.addr).run m = .ok (.ok obj) m₁ ∧
        (Line.print ((load m₁.memory obj).bytes m₁.memory) 4).run m₁ =
          .ok (.error (.allocation 4)) m₂ ∧ m₂.out.received = []) ∧
    (e ∈ m'.heap.ledger.entries ∧ e.HasText m'.memory e.addr 2 ∧
      ∃ obj m₁ m₂ m₃, (StringObject.ofText e.addr).run m' = .ok (.ok obj) m₁ ∧
        (Heap.release obj).run m₁ = .ok () m₂ ∧
        (Guarded.tryRelease e.addr).run m₂ =
          .ok (.error (.damaged e.addr 3 ⟨false, true⟩)) m₃) ∧
    Line.sent text (2 ^ 31 + 1) ≠ text ++ [10] := by
  intro e m m' text
  constructor
  · refine ⟨by decide +kernel, ⟨by decide, by decide, by decide +kernel, by decide +kernel⟩,
      Arena.base + 64, ?_⟩
    obtain ⟨m₁, hobj, htest⟩ : ∃ m₁,
        (StringObject.ofText e.addr).run m = .ok (.ok (Arena.base + 64)) m₁ ∧
        (Line.print ((load m₁.memory (Arena.base + 64)).bytes m₁.memory) 4).ensures m₁
          (fun r m₂ => r = .error (.allocation 4) && m₂.out.received = []) = true :=
      Action.exists_run_and_of_ensures (by decide +kernel)
    obtain ⟨m₂, hprint, hout⟩ := Action.exists_run_and_of_ensures htest
    exact ⟨m₁, m₂, hobj, hprint, of_decide_eq_true hout⟩
  constructor
  · refine ⟨by decide +kernel, ⟨by decide, by decide, by decide +kernel, by decide +kernel⟩,
      Arena.base + 64, ?_⟩
    obtain ⟨m₁, hobj, htest⟩ : ∃ m₁,
        (StringObject.ofText e.addr).run m' = .ok (.ok (Arena.base + 64)) m₁ ∧
        (Heap.release (Arena.base + 64)).ensures m₁ (fun r m₂ => r = () &&
          (Guarded.tryRelease e.addr).ensures m₂
            (fun r _ => r = .error (.damaged e.addr 3 ⟨false, true⟩))) = true :=
      Action.exists_run_and_of_ensures (by decide +kernel)
    obtain ⟨m₂, hrelease, htest⟩ := Action.exists_run_and_of_ensures htest
    obtain ⟨m₃, hrefused⟩ := Action.exists_run_of_answer htest
    exact ⟨m₁, m₂, m₃, hobj, hrelease, hrefused⟩
  · intro hsent
    have hnul : 0 ∉ text := fun hmem => absurd (List.eq_of_mem_replicate hmem) (by decide)
    have hlen : text.length = 2 ^ 31 - 1 := List.length_replicate
    have hsize : text.length + 2 ≤ 2 ^ 31 + 1 := by
      rw [hlen]
      decide
    have hcut := Line.getElem?_sent_of_long hnul (by rw [hlen]; decide) hsize
    rw [hsent, List.getElem?_append_left (by rw [hlen]; decide),
      List.getElem?_replicate_of_lt (by decide)] at hcut
    cases hcut

end Program

end HeapGuard
