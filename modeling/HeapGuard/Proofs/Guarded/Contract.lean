import HeapGuard.Proofs.Guarded.Runs
import HeapGuard.Proofs.Heap.Contract

/-! # The guarded heap keeps the contract of heaps

A client that writes to its own blocks only can hold blocks of a guarded heap like those
of any heap. Other blocks of the same heap, damaged or not, are left as they are.
-/

namespace HeapGuard

open BlockSource (Lawful outstanding)
open RedZone (width InZone)
open scoped List

/-- The bytes of an entry that its user sees. -/
def Entry.user (e : Entry) : Block := ⟨e.addr, e.size⟩

namespace Guarded

variable {N : Nat} {S : Type} [BlockSource S] {s₀ : S} {log : List Arena.Event}
  {entries rest : List Entry} {e : Entry} {memory : Memory} {m : Machine (Guarded N S)}

/-- The blocks held have intact zones, and the other live blocks hold the bytes of `memory`. -/
def Holds (s₀ : S) (rest : List Entry) (memory : Memory) (live : List Block)
    (m : Machine (Guarded N S)) : Prop :=
  ∃ log entries, Accounted s₀ log (entries ++ rest) m ∧ entries.map Entry.user ~ live ∧
    Intact entries m.memory ∧ Undisturbed rest memory m.memory

theorem Accounted.holds (h : Accounted s₀ log rest m) : Holds s₀ rest m.memory [] m :=
  ⟨log, [], h, .nil, by simp [Intact], fun _ _ _ _ => rfl⟩

theorem Holds.accounted (h : Holds s₀ rest memory [] m) :
    ∃ log, Accounted s₀ log rest m ∧ Undisturbed rest memory m.memory := by
  obtain ⟨log, entries, hacc, hp, -, hu⟩ := h
  obtain rfl : entries = [] := List.map_eq_nil_iff.mp hp.eq_nil
  exact ⟨log, hacc, hu⟩

theorem Holds.undisturbed {live : List Block} (h : Holds s₀ rest memory live m) :
    Undisturbed rest memory m.memory := by
  obtain ⟨_, _, -, -, -, hu⟩ := h
  exact hu

theorem covers_extent_of_user {x : Nat} (hx : e.user.Covers x) : e.extent.Covers x := by
  simp only [Block.Covers, Entry.user, Entry.extent] at hx ⊢
  omega

theorem Undisturbed.get_user {memory' : Memory} (h : Undisturbed entries memory memory')
    {live : List Block} (hp : entries.map Entry.user ~ live) :
    ∀ b ∈ live, ∀ x, b.Covers x → memory'.get x = memory.get x := by
  intro b hb x hx
  obtain ⟨e, he, rfl⟩ := List.mem_map.mp (hp.symm.subset hb)
  exact h e he x (covers_extent_of_user hx)

namespace Accounted

variable (hs : Lawful s₀) (h : Accounted s₀ log (entries ++ rest) m)
include hs h

theorem filter_user_perm {live : List Block} (hp : entries.map Entry.user ~ e.user :: live) :
    (entries.filter (·.addr != e.addr)).map Entry.user ~ live := by
  have hn := h.nodup_addr hs
  rw [List.map_append, List.nodup_append] at hn
  have hn' : ((e.user :: live).map Block.addr).Nodup := by
    rw [← (hp.map Block.addr).nodup_iff, List.map_map]
    exact hn.1
  have hkeep : (e.user :: live).filter (·.addr != e.addr) = live := by
    rw [List.filter_cons_of_neg (by simp [Entry.user]), List.filter_eq_self]
    intro b hb
    have hne : b.addr ≠ e.user.addr := fun heq =>
      (List.nodup_cons.mp hn').1 (heq ▸ List.mem_map_of_mem hb)
    exact bne_iff_ne.mpr hne
  have hf := hp.filter (·.addr != e.addr)
  rwa [hkeep, List.filter_map] at hf

variable (he : e ∈ entries)
include he

theorem filter_append :
    (entries ++ rest).filter (·.addr != e.addr) = entries.filter (·.addr != e.addr) ++ rest := by
  have hn := h.nodup_addr hs
  rw [List.map_append, List.nodup_append] at hn
  rw [List.filter_append]
  congr 1
  rw [List.filter_eq_self]
  intro d hd
  simpa using (hn.2.2 e.addr (List.mem_map_of_mem he) d.addr (List.mem_map_of_mem hd)).symm

variable (hm : ∀ x, ¬ e.user.Covers x → memory.get x = m.memory.get x)
include hm

theorem intact_of_user (hz : Intact entries m.memory) : Intact entries memory := by
  intro d hd x hx
  have hout := h.outside_of_inZone hs (List.mem_append_left _ hd) (List.mem_append_left _ he) hx
  rw [hm x fun hin => by simp only [Block.Covers, Entry.user] at hin; omega]
  exact hz d hd x hx

theorem undisturbed_of_user : Undisturbed rest m.memory memory := by
  intro d hd x hx
  refine hm x fun hin => ?_
  have hap : e.extent.Apart d.extent :=
    (List.pairwise_append.mp (h.pairwise_apart hs)).2.2 e he d hd
  exact hap.not_covers (covers_extent_of_user hin) hx

end Accounted

theorem Holds.apart (hs : Lawful s₀) {live : List Block} (hm : Holds s₀ rest memory live m) :
    live.Pairwise Block.Apart := by
  obtain ⟨log, entries, h, hp, -⟩ := hm
  refine (hp.pairwise_iff Block.Apart.symm).mp (List.pairwise_map.mpr ?_)
  have hap := (List.pairwise_append.mp (h.pairwise_apart hs)).1
  refine hap.imp_of_mem fun {d e} hd he hde => ?_
  have hd' := (h.bounds hs (List.mem_append_left _ hd)).1
  have he' := (h.bounds hs (List.mem_append_left _ he)).1
  simp only [Block.Apart, Entry.extent, Entry.user] at hde ⊢
  omega

/-- A block that is held can be given back: its zones are intact. -/
theorem Holds.release (hN : 0 < N) (hs : Lawful s₀) {b : Block} {live : List Block}
    (hm : Holds s₀ rest memory (b :: live) m) :
    ∃ m', (Guarded.release b.addr).run m = .ok () m' ∧ Holds s₀ rest memory live m' ∧
      Heap.Keeps live m m' := by
  obtain ⟨log, entries, h, hp, hz, hu⟩ := hm
  obtain ⟨e, he, rfl⟩ := List.mem_map.mp (hp.symm.subset List.mem_cons_self)
  have hmem : e ∈ entries ++ rest := List.mem_append_left _ he
  obtain ⟨hl, c, hc, hsound, hperm⟩ := h.lookup_of_mem hN hs hmem
  have hrun := tryRelease_of_intact hl (RedZone.check_eq_none_iff.mpr (hz e he)) hc
  have hacc := h.strike hs hmem hsound hperm (RedZone.poison m.memory e.addr e.size)
  have hund := h.undisturbed_release hs hmem rfl
  rw [h.filter_append hs he] at hacc hund
  have hown := hund.mono (List.subset_append_left _ rest)
  have hrest := hund.mono (List.subset_append_right _ rest)
  have hp' := h.filter_user_perm hs hp
  exact ⟨_, release_of_ok (Nat.ne_zero_of_lt (h.bounds hs hmem).1) hrun,
    ⟨_, _, hacc, hp', (hz.filter _).of_undisturbed hown, hu.trans hrest⟩, rfl, hown.get_user hp'⟩

theorem contract (hN : 0 < N) (hs : Lawful s₀) (rest : List Entry) (memory : Memory) :
    Heap.Contract (Holds (N := N) s₀ rest memory) where
  perm := by
    rintro live live' m ⟨log, entries, h, hp, hrest⟩ hl
    exact ⟨log, entries, h, hp.trans hl, hrest⟩
  within := by
    rintro live m ⟨log, entries, h, hp, -⟩ b hb
    obtain ⟨e, he, rfl⟩ := List.mem_map.mp (hp.symm.subset hb)
    have := (h.bounds hs (List.mem_append_left _ he)).2
    dsimp only [Entry.user]
    omega
  apart hm := hm.apart hs
  alloc := by
    rintro live m ⟨log, entries, h, hp, hz, hu⟩ bytes kind -
    rcases h.allocZeroed_cases hN hs bytes kind with
      ⟨log', memory', source, hrun, hacc, -, hund⟩ |
      ⟨a, log', memory', source, ledger, hrun, hacc, hund, hpris⟩
    · left
      have hown := hund.mono (List.subset_append_left entries rest)
      have hrest := hund.mono (List.subset_append_right entries rest)
      exact ⟨_, hrun, ⟨log', entries, hacc, hp, hz.of_undisturbed hown, hu.trans hrest⟩, rfl,
        hown.get_user hp⟩
    · right
      have hown := hund.mono (List.subset_append_left entries rest)
      have hrest := hund.mono (List.subset_append_right entries rest)
      refine ⟨a, _, hrun, ⟨log', ⟨a, bytes, kind⟩ :: entries, hacc, hp.cons _,
        (hz.of_undisturbed hown).cons hpris, hu.trans hrest⟩, ⟨rfl, hown.get_user hp⟩, ?_⟩
      intro x hx
      exact hpris.zeros x hx.1 hx.2
  release hm := hm.release hN hs
  write := by
    rintro live m b memory' ⟨log, entries, h, hp, hz, hu⟩ hb hm
    obtain ⟨e, he, rfl⟩ := List.mem_map.mp (hp.symm.subset hb)
    exact ⟨log, entries, h.of_heap_eq rfl, hp, h.intact_of_user hs he hm hz,
      hu.trans (h.undisturbed_of_user hs he hm)⟩
  redirect := by
    rintro live m ⟨log, entries, h, hrest⟩ out
    exact ⟨log, entries, h.of_heap_eq rfl, hrest⟩

namespace Accounted

variable (hN : 0 < N) (hs : Lawful s₀) (h : Accounted s₀ log entries m)
include hN hs h

theorem alloc_cases (bytes : Nat) (kind : Kind) :
    (∃ m' log', (Heap.alloc bytes kind).run m = .ok (.error (.allocation bytes)) m' ∧
      Accounted s₀ log' entries m' ∧ Heap.Keeps (entries.map Entry.user) m m') ∨
    ∃ a m' log', (Heap.alloc bytes kind).run m = .ok (.ok a) m' ∧
      Accounted s₀ log' (⟨a, max bytes 1, kind⟩ :: entries) m' ∧
      Heap.Keeps (entries.map Entry.user) m m' := by
  rcases h.allocZeroed_cases hN hs (max bytes 1) kind with
    ⟨log', memory, source, hrun, hacc, -, hu⟩ | ⟨a, log', memory, source, ledger, hrun, hacc, hu, -⟩
  · left
    exact ⟨_, log', alloc_of_none hrun, hacc, rfl, hu.get_user (.refl _)⟩
  · right
    exact ⟨a, _, log', alloc_of_some hrun, hacc, rfl, hu.get_user (.refl _)⟩

/-- A client that holds some of the blocks holds one more, and there was room for it in the ledger,
or it holds what it held. -/
theorem alloc_held {held : List Block} (hm : Holds s₀ rest memory held m) {bytes : Nat}
    (hb : max bytes 1 + 2 * width < Memory.top) (kind : Kind) :
    (∃ m', (Heap.alloc bytes kind).run m = .ok (.error (.allocation bytes)) m' ∧
      Holds s₀ rest memory held m' ∧ Heap.Keeps held m m' ∧
      (Grants m (max bytes 1) kind → N ≤ entries.length)) ∨
    ∃ a m' log', (Heap.alloc bytes kind).run m = .ok (.ok a) m' ∧
      Accounted s₀ log' (⟨a, max bytes 1, kind⟩ :: entries) m' ∧
      Holds s₀ rest memory (⟨a, max bytes 1⟩ :: held) m' ∧ Heap.Keeps held m m' ∧
      entries.length < N := by
  have hH := contract hN hs rest memory
  obtain ⟨block, calls, entries', m', hrun, hv, h'⟩ := h.alloc_served hN hs bytes kind
  cases block with
  | none =>
    left
    obtain ⟨-, hfull⟩ := hv.of_none
    obtain ⟨hm', hk⟩ := hH.alloc_of_error hm hrun
    exact ⟨m', hrun, hm', hk, hfull hb⟩
  | some a =>
    right
    obtain ⟨rfl, hroom⟩ := hv.of_some
    obtain ⟨hm', hk, -⟩ := hH.alloc_of_ok hm hrun
    exact ⟨a, m', _, hrun, h', hm', hk, hroom⟩

/-- A live block is given back and the others keep their bytes, or the run ends with a report. -/
theorem release_cases {a : Nat} (ha : a ≠ 0) :
    (∃ fault,
      (Heap.release a).run m = (Action.die (.fault fault) : Action (Guarded N S) Unit).run m) ∨
    ∃ e ∈ entries, e.addr = a ∧ ∃ m' log', (Heap.release a).run m = .ok () m' ∧
      Accounted s₀ log' (entries.filter (·.addr != a)) m' ∧
      Heap.Keeps ((entries.filter (·.addr != a)).map Entry.user) m m' := by
  by_cases hl : a ∈ entries.map Entry.addr
  · obtain ⟨e, he, rfl⟩ := List.mem_map.mp hl
    rcases hd : RedZone.check m.memory (e.addr - width) e.size with _ | d
    · right
      obtain ⟨hl, c, hc, hsound, hp⟩ := h.lookup_of_mem hN hs he
      exact ⟨e, he, rfl, _, _, release_of_ok ha (tryRelease_of_intact hl hd hc),
        h.strike hs he hsound hp _, rfl, (h.undisturbed_release hs he rfl).get_user (.refl _)⟩
    · left
      exact ⟨_, release_of_fault ha (h.tryRelease_of_mem_damaged hN hs he hd)⟩
  · left
    exact ⟨_, release_of_fault ha (h.tryRelease_of_not_mem hN hl)⟩

end Accounted

end Guarded

end HeapGuard
