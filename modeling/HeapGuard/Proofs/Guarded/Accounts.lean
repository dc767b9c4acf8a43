import HeapGuard.Proofs.Guarded.Operations
import HeapGuard.Proofs.Ledger.Invariant
import HeapGuard.Proofs.RedZone
import HeapGuard.Proofs.Source.Contract

/-! # The accounts of the guarded heap

The ledger of a guarded heap and the record of the calls to its source tell the same
story: the outstanding blocks of the source are the extents of the live entries. The
two operations that change the ledger keep these accounts, whatever memory holds.
-/

namespace HeapGuard

open Arena (Event)
open BlockSource (Reaches Lawful Separate outstanding)
open RedZone (width InZone)
open scoped List

/-- The block of the source that an entry stands for: its user bytes and both zones. -/
def Entry.extent (e : Entry) : Block := ⟨e.addr - width, e.size + 2 * width⟩

theorem Entry.sum_size_extent (entries : List Entry) :
    ((entries.map extent).map Block.size).sum =
      (entries.map size).sum + 2 * width * entries.length := by
  induction entries with
  | nil => rfl
  | cons e entries ih =>
    simp only [List.map_cons, List.sum_cons, List.length_cons, ih, extent, Nat.mul_succ]
    omega

namespace Guarded

variable {N : Nat} {S : Type} [BlockSource S]

/-- The extents of these entries hold the same bytes in both memories. -/
def Undisturbed (live : List Entry) (m m' : Memory) : Prop :=
  ∀ e ∈ live, ∀ x, e.extent.Covers x → m'.get x = m.get x

namespace Undisturbed

variable {live live' : List Entry} {m m' m'' : Memory}

theorem trans (h : Undisturbed live m m') (h' : Undisturbed live m' m'') :
    Undisturbed live m m'' :=
  fun e he x hx => (h' e he x hx).trans (h e he x hx)

theorem mono (h : Undisturbed live m m') (hsub : live' ⊆ live) : Undisturbed live' m m' :=
  fun e he => h e (hsub he)

end Undisturbed

/-- The zones of the entry are intact and its user bytes zero. -/
structure Pristine (e : Entry) (m : Memory) : Prop where
  zones : ∀ x, InZone (e.addr - width) e.size x → m.get x = RedZone.canary
  zeros : ∀ x, e.addr ≤ x → x < e.addr + e.size → m.get x = 0

omit [BlockSource S] in
theorem isLive_of_sound (hN : 0 < N) {m : Machine (Guarded N S)} (h : m.heap.ledger.Sound)
    (a : Nat) :
    (isLive a).run m = .ok (decide (a ∈ m.heap.ledger.entries.map Entry.addr)) m := by
  by_cases ha : a ∈ m.heap.ledger.entries.map Entry.addr
  · rw [decide_eq_true ha]
    obtain ⟨e, he, rfl⟩ := List.mem_map.mp ha
    obtain ⟨_, e', hf, _, _⟩ := Ledger.find_of_mem hN h he rfl
    exact isLive_of_lookup (Ledger.lookup_eq_of_find hf)
  · rw [decide_eq_false ha]
    have habsent : ∀ e ∈ m.heap.ledger.entries, e.addr ≠ a := fun e he hea =>
      ha (hea ▸ List.mem_map_of_mem he)
    exact isLive_of_lookup (Ledger.lookup_eq_of_find (Ledger.find_of_absent hN habsent))

structure Accounted (s₀ : S) (log : List Event) (live : List Entry) (m : Machine (Guarded N S)) :
    Prop where
  reaches : Reaches s₀ log m.heap.source
  sound : m.heap.ledger.Sound
  entries_perm : m.heap.ledger.entries ~ live
  outstanding_perm : outstanding log ~ live.map Entry.extent

namespace Accounted

variable {s₀ : S} {log : List Event} {live : List Entry} {m : Machine (Guarded N S)} {e : Entry}

theorem new {m : Machine (Guarded N S)} (h : m.heap = .new N s₀) : Accounted s₀ [] [] m where
  reaches := by rw [h]; exact .start
  sound := by rw [h]; exact Ledger.sound_empty N
  entries_perm := by rw [h]; exact .of_eq (Ledger.entries_empty N)
  outstanding_perm := .nil

theorem of_heap_eq {m' : Machine (Guarded N S)} (h : Accounted s₀ log live m)
    (he : m'.heap = m.heap) : Accounted s₀ log live m' where
  reaches := he ▸ h.reaches
  sound := he ▸ h.sound
  entries_perm := he ▸ h.entries_perm
  outstanding_perm := h.outstanding_perm

theorem perm {live' : List Entry} (h : Accounted s₀ log live m) (hp : live ~ live') :
    Accounted s₀ log live' m where
  reaches := h.reaches
  sound := h.sound
  entries_perm := h.entries_perm.trans hp
  outstanding_perm := h.outstanding_perm.trans (hp.map Entry.extent)

theorem live_eq (h : Accounted s₀ log live m) : m.heap.ledger.live = live.length := by
  rw [h.sound.live_eq, h.entries_perm.length_eq]

theorem liveBytes_eq (h : Accounted s₀ log live m) :
    m.heap.ledger.liveBytes = (live.map Entry.size).sum := by
  rw [h.sound.liveBytes_eq, (h.entries_perm.map Entry.size).sum_nat]

theorem sum_size_outstanding (h : Accounted s₀ log live m) :
    ((outstanding log).map Block.size).sum =
      m.heap.ledger.liveBytes + 2 * width * m.heap.ledger.live := by
  rw [h.live_eq, h.liveBytes_eq, (h.outstanding_perm.map Block.size).sum_nat,
    Entry.sum_size_extent]

theorem extent_mem_outstanding (h : Accounted s₀ log live m) (he : e ∈ live) :
    e.extent ∈ outstanding log :=
  h.outstanding_perm.symm.subset (List.mem_map_of_mem he)

section Layout

variable (hs : Separate s₀) (h : Accounted s₀ log live m)
include hs h

theorem pairwise_apart : live.Pairwise fun d e => d.extent.Apart e.extent := by
  rw [← List.pairwise_map]
  exact (h.outstanding_perm.pairwise_iff Block.Apart.symm).mp (hs.pairwise_outstanding h.reaches)

theorem apart_of_ne {d : Entry} (hd : d ∈ live) (he : e ∈ live) (hne : d ≠ e) :
    d.extent.Apart e.extent := by
  have : Std.Symm fun d e : Entry => d.extent.Apart e.extent := ⟨fun _ _ => Block.Apart.symm⟩
  exact (h.pairwise_apart hs).forall hd he hne

theorem bounds (he : e ∈ live) : width < e.addr ∧ e.addr + e.size + width ≤ Memory.top := by
  obtain ⟨hpos, htop⟩ := hs.within h.reaches (h.extent_mem_outstanding he)
  simp only [Entry.extent] at hpos htop
  omega

theorem covers_extent (he : e ∈ live) {x : Nat} (hl : e.addr - 16 ≤ x)
    (hx : x < e.addr + e.size + 16) : e.extent.Covers x := by
  have hb := (h.bounds hs he).1
  simp only [Block.Covers, Entry.extent, width] at hb ⊢
  omega

theorem nodup_addr : (live.map Entry.addr).Nodup := by
  rw [List.Nodup, List.pairwise_map]
  refine (h.pairwise_apart hs).imp_of_mem fun {d e} hd he ha heq => ?_
  simp only [Block.Apart, Entry.extent, width] at ha
  omega

theorem eq_of_addr_eq {e' : Entry} (he : e ∈ live) (he' : e' ∈ live) (ha : e.addr = e'.addr) :
    e = e' :=
  List.inj_on_of_nodup_map (h.nodup_addr hs) he he' ha

theorem length_filter_addr (he : e ∈ live) :
    (live.filter (·.addr != e.addr)).length + 1 = live.length := by
  have hone : live.countP (·.addr == e.addr) = 1 := by
    have hcount := List.count_eq_one_of_mem (h.nodup_addr hs) (List.mem_map_of_mem he)
    rwa [List.count, List.countP_map] at hcount
  have hall := List.length_eq_countP_add_countP (·.addr == e.addr) (l := live)
  rw [hone, List.countP_eq_length_filter] at hall
  rw [hall, Nat.add_comm]
  congr 2
  apply List.filter_congr
  intro d _
  rw [Bool.eq_iff_iff]
  simp

end Layout

section Lookup

variable (hN : 0 < N) (h : Accounted s₀ log live m)
include hN h

theorem lookup_of_absent {a : Nat} (ha : a ∉ live.map Entry.addr) :
    m.heap.ledger.lookup a = .ok none := by
  refine Ledger.lookup_eq_of_find (Ledger.find_of_absent hN fun e he hea => ha ?_)
  rw [← hea]
  exact List.mem_map_of_mem (h.entries_perm.subset he)

/-- The entry of a live block is found and can be struck. -/
theorem lookup_of_mem (hs : Separate s₀) (he : e ∈ live) :
    m.heap.ledger.lookup e.addr = .ok (some e) ∧
      ∃ c, m.heap.ledger.striking e.addr = .ok (some (e, c)) ∧
        (m.heap.ledger.apply c).Sound ∧
        m.heap.ledger.entries ~ e :: (m.heap.ledger.apply c).entries := by
  obtain ⟨j, e', hf, hj, ha⟩ :=
    Ledger.find_of_mem hN h.sound (h.entries_perm.symm.subset he) rfl
  have hm : e' ∈ live := h.entries_perm.subset (Ledger.mem_entries_iff.mpr ⟨j, hj⟩)
  obtain rfl : e' = e := h.eq_of_addr_eq hs hm he ha
  exact ⟨Ledger.lookup_eq_of_find hf, h.sound.striking_of_find hf hj⟩

/-- What the ledger finds at an address depends on the live blocks there and on nothing else. -/
theorem lookup_congr {log' : List Event} {live' : List Entry} {m' : Machine (Guarded N S)}
    (hs : Separate s₀) (h' : Accounted s₀ log' live' m') {a : Nat}
    (ha : ∀ e : Entry, e.addr = a → (e ∈ live' ↔ e ∈ live)) :
    m'.heap.ledger.lookup a = m.heap.ledger.lookup a := by
  by_cases hmem : a ∈ live.map Entry.addr
  · obtain ⟨e, he, rfl⟩ := List.mem_map.mp hmem
    rw [(h.lookup_of_mem hN hs he).1, (h'.lookup_of_mem hN hs ((ha e rfl).mpr he)).1]
  · have hmem' : a ∉ live'.map Entry.addr := by
      intro hm
      obtain ⟨e, he, rfl⟩ := List.mem_map.mp hm
      exact hmem (List.mem_map_of_mem ((ha e rfl).mp he))
    rw [h.lookup_of_absent hN hmem, h'.lookup_of_absent hN hmem']

end Lookup

theorem outstanding_release_perm (hs : Separate s₀) (h : Accounted s₀ log live m) (he : e ∈ live) :
    outstanding (.release (e.addr - width) :: log) ~
      (live.filter (·.addr != e.addr)).map Entry.extent := by
  -- addresses of live blocks exceed the width of a zone, so their extents start apart
  have hbase : ∀ d ∈ live, (d.extent.addr != e.addr - width) = (d.addr != e.addr) := by
    intro d hd
    have hd' := (h.bounds hs hd).1
    have he' := (h.bounds hs he).1
    rw [Bool.eq_iff_iff, bne_iff_ne, bne_iff_ne]
    dsimp only [Entry.extent]
    omega
  rw [outstanding, Block.eraseP_eq_filter (hs.nodup_outstanding h.reaches)]
  refine (h.outstanding_perm.filter _).trans (.of_eq ?_)
  rw [List.filter_map]
  exact congrArg _ (List.filter_congr hbase)

theorem strike (hs : Separate s₀) (h : Accounted s₀ log live m) (he : e ∈ live)
    {c : Ledger.Change N} (hc : (m.heap.ledger.apply c).Sound)
    (hp : m.heap.ledger.entries ~ e :: (m.heap.ledger.apply c).entries) (given : Memory) :
    let p := BlockSource.release m.heap.source given (e.addr - width)
    Accounted s₀ (.release (e.addr - width) :: log) (live.filter (·.addr != e.addr))
      { m with memory := p.2, heap := ⟨p.1, m.heap.ledger.apply c⟩ } where
  reaches := h.reaches.release (h.extent_mem_outstanding he) given
  sound := hc
  entries_perm := by
    have hn : (e.addr :: (m.heap.ledger.apply c).entries.map Entry.addr).Nodup :=
      ((h.entries_perm.symm.trans hp).map Entry.addr).nodup_iff.mp (h.nodup_addr hs)
    have hkeep : (m.heap.ledger.apply c).entries.filter (·.addr != e.addr) =
        (m.heap.ledger.apply c).entries := by
      rw [List.filter_eq_self]
      intro d hd
      have hne : d.addr ≠ e.addr := fun heq =>
        (List.nodup_cons.mp hn).1 (heq ▸ List.mem_map_of_mem hd)
      simpa using hne
    have hf := (h.entries_perm.symm.trans hp).filter (·.addr != e.addr)
    rw [List.filter_cons_of_neg (by simp), hkeep] at hf
    exact hf.symm
  outstanding_perm := h.outstanding_release_perm hs he

/-- Neither poison nor the source, when it takes the block back, reaches another live block. -/
theorem undisturbed_release (hs : Lawful s₀) (h : Accounted s₀ log live m) (he : e ∈ live)
    {source : S} {memory : Memory}
    (hr : BlockSource.release m.heap.source (RedZone.poison m.memory e.addr e.size)
      (e.addr - width) = (source, memory)) :
    Undisturbed (live.filter (·.addr != e.addr)) m.memory memory := by
  intro d hd x hx
  have hout : d.extent ∈ outstanding (.release (e.addr - width) :: log) :=
    (h.outstanding_release_perm hs he).symm.subset (List.mem_map_of_mem hd)
  have hk := hs.release_frame h.reaches (h.extent_mem_outstanding he)
    (RedZone.poison m.memory e.addr e.size) _ hout x hx
  rw [Entry.extent, hr] at hk
  rw [hk]
  obtain ⟨hd, hne⟩ := List.mem_filter.mp hd
  have hap := h.apart_of_ne hs he hd fun heq => by simp [heq] at hne
  apply RedZone.get_poison_of_outside
  simp only [Block.Apart, Block.Covers, Entry.extent] at hap hx
  omega

section Alloc

variable {n base : Nat} {kind : Kind} {source : S} {memory : Memory}

theorem undisturbed_source (hs : Lawful s₀) (h : Accounted s₀ log live m) {block : Option Nat}
    (hr : BlockSource.alloc m.heap.source m.memory (n + 2 * width) kind =
      (block, source, memory)) : Undisturbed live m.memory memory := by
  intro e he x hx
  have hk := hs.alloc_frame h.reaches (RedZone.total_pos n) m.memory kind e.extent
    (h.extent_mem_outstanding he) x hx
  rwa [hr] at hk

theorem reaches_alloc (h : Accounted s₀ log live m) {block : Option Nat}
    (hr : BlockSource.alloc m.heap.source m.memory (n + 2 * width) kind =
      (block, source, memory)) :
    Reaches s₀ (.alloc (n + 2 * width) kind block :: log) source := by
  have hreach := h.reaches.alloc (RedZone.total_pos n) m.memory kind
  rwa [hr] at hreach

section Written

variable (hs : Lawful s₀) (h : Accounted s₀ log live m)
  (hr : BlockSource.alloc m.heap.source m.memory (n + 2 * width) kind =
    (some base, source, memory))
include hs h hr

theorem undisturbed_fill : Undisturbed live m.memory (RedZone.fill memory base n) := by
  obtain ⟨-, htop, -, hapart⟩ := hs.alloc_some h.reaches (RedZone.total_pos n) hr
  intro e he x hx
  have hout : ¬ InZone base n x := by
    have hap := hapart _ (h.extent_mem_outstanding he)
    simp only [Block.Apart, Block.Covers, InZone] at hap hx ⊢
    omega
  rw [RedZone.get_fill_of_not_inZone (by omega) hout]
  exact h.undisturbed_source hs hr e he x hx

theorem pristine_fill : Pristine ⟨base + width, n, kind⟩ (RedZone.fill memory base n) := by
  obtain ⟨-, htop, hzero, -⟩ := hs.alloc_some h.reaches (RedZone.total_pos n) hr
  constructor
  · intro x hx
    rw [Nat.add_sub_cancel] at hx
    exact RedZone.get_fill_of_inZone (by omega) hx
  · intro x hl hu
    dsimp only at hl hu
    have hout : ¬ InZone base n x := by
      simp only [InZone]
      omega
    rw [RedZone.get_fill_of_not_inZone (by omega) hout]
    exact hzero x (by omega) (by omega)

theorem undisturbed_giveBack {given memory' : Memory} {source' : S}
    (hg : BlockSource.release source given base = (source', memory')) :
    Undisturbed live given memory' := by
  intro e he x hx
  have hout : e.extent ∈
      outstanding (.release base :: .alloc (n + 2 * width) kind (some base) :: log) := by
    simpa [outstanding] using h.extent_mem_outstanding he
  have hk := hs.release_frame (b := ⟨base, n + 2 * width⟩) (h.reaches_alloc hr)
    List.mem_cons_self given _ hout x hx
  rwa [hg] at hk

end Written

section Entered

variable (h : Accounted s₀ log live m)
  (hr : BlockSource.alloc m.heap.source m.memory (n + 2 * width) kind =
    (some base, source, memory))
include h hr

/-- The totals have room for one more block: with the zones around them all live bytes, and those
of the new block, lie at different addresses. -/
theorem fits (hs : Separate s₀) : m.heap.ledger.liveBytes + n < 2 ^ 64 := by
  have hreach := h.reaches_alloc hr
  have hle := Block.sum_size_le_top (hs.pairwise_outstanding hreach) fun b hb =>
    (hs.within hreach hb).2
  rw [outstanding, List.map_cons, List.sum_cons, h.sum_size_outstanding] at hle
  simp only [Memory.top, width] at hle
  omega

theorem enter {c : Ledger.Change N} (hc : (m.heap.ledger.apply c).Sound)
    (hp : (m.heap.ledger.apply c).entries ~ ⟨base + width, n, kind⟩ :: m.heap.ledger.entries) :
    Accounted s₀ (.alloc (n + 2 * width) kind (some base) :: log) (⟨base + width, n, kind⟩ :: live)
      { m with
        memory := RedZone.fill memory base n
        heap := ⟨source, m.heap.ledger.apply c⟩ } where
  reaches := h.reaches_alloc hr
  sound := hc
  entries_perm := hp.trans (h.entries_perm.cons _)
  outstanding_perm := by
    rw [outstanding, List.map_cons, Entry.extent, Nat.add_sub_cancel]
    exact h.outstanding_perm.cons _

theorem giveBack (given : Memory) :
    let p := BlockSource.release source given base
    Accounted s₀ (.release base :: .alloc (n + 2 * width) kind (some base) :: log) live
      { m with memory := p.2, heap := { m.heap with source := p.1 } } where
  reaches := (h.reaches_alloc hr).release (b := ⟨base, n + 2 * width⟩) List.mem_cons_self given
  sound := h.sound
  entries_perm := h.entries_perm
  outstanding_perm := by
    simpa [outstanding] using h.outstanding_perm

end Entered

end Alloc

end Accounted

/-! ## Requests -/

/-- How a request for `n` bytes ends, by the answers of the source and of the ledger: what is
answered, the calls to the source, the last one first, and what is live afterwards. -/
inductive Served (m : Machine (Guarded N S)) (live : List Entry) (n : Nat) (kind : Kind) :
    Option Nat → List Event → List Entry → Machine (Guarded N S) → Prop
  /-- With its zones the block would be larger than memory; the source is not asked. -/
  | huge (hb : Memory.top ≤ n + 2 * width) : Served m live n kind none [] live m
  | refused {source : S} {memory : Memory} (hb : n + 2 * width < Memory.top)
      (hr : BlockSource.alloc m.heap.source m.memory (n + 2 * width) kind =
        (none, source, memory)) :
      Served m live n kind none [.alloc (n + 2 * width) kind none] live
        { m with memory, heap := { m.heap with source } }
  /-- The ledger has no room, and the block goes straight back. -/
  | full {base : Nat} {source source' : S} {memory memory' : Memory}
      (hb : n + 2 * width < Memory.top)
      (hr : BlockSource.alloc m.heap.source m.memory (n + 2 * width) kind =
        (some base, source, memory))
      (hg : BlockSource.release source (RedZone.fill memory base n) base = (source', memory'))
      (hfull : N ≤ live.length) :
      Served m live n kind none [.release base, .alloc (n + 2 * width) kind (some base)] live
        { m with memory := memory', heap := { m.heap with source := source' } }
  | entered {base : Nat} {source : S} {memory : Memory} {ledger : Ledger N}
      (hb : n + 2 * width < Memory.top)
      (hr : BlockSource.alloc m.heap.source m.memory (n + 2 * width) kind =
        (some base, source, memory)) (hroom : live.length < N) :
      Served m live n kind (some (base + width)) [.alloc (n + 2 * width) kind (some base)]
        (⟨base + width, n, kind⟩ :: live)
        { m with memory := RedZone.fill memory base n, heap := ⟨source, ledger⟩ }

section Served

variable {s₀ : S} {log calls : List Event} {live live' : List Entry} {m m' : Machine (Guarded N S)}
  {n : Nat} {kind : Kind} {block : Option Nat}

theorem Served.undisturbed (hs : Lawful s₀) (h : Accounted s₀ log live m)
    (hv : Served m live n kind block calls live' m') : Undisturbed live m.memory m'.memory := by
  cases hv with
  | huge => exact fun _ _ _ _ => rfl
  | refused _ hr => exact h.undisturbed_source hs hr
  | full _ hr hg => exact (h.undisturbed_fill hs hr).trans (h.undisturbed_giveBack hs hr hg)
  | entered _ hr => exact h.undisturbed_fill hs hr

/-- The source has a block for so many bytes and the zones around them. -/
def Grants (m : Machine (Guarded N S)) (n : Nat) (kind : Kind) : Prop :=
  (BlockSource.alloc m.heap.source m.memory (n + 32) kind).1.isSome = true

theorem Served.of_some {a : Nat} (hv : Served m live n kind (some a) calls live' m') :
    live' = ⟨a, n, kind⟩ :: live ∧ live.length < N := by
  cases hv with
  | entered _ _ hroom => exact ⟨rfl, hroom⟩

/-- Only for want of room in the ledger is a request refused that the source grants. -/
theorem Served.of_none (hv : Served m live n kind none calls live' m') :
    live' = live ∧ (n + 2 * width < Memory.top → Grants m n kind → N ≤ live.length) := by
  cases hv with
  | huge hge => exact ⟨rfl, fun hlt => absurd hge (Nat.not_le.mpr hlt)⟩
  | refused _ hr =>
    refine ⟨rfl, fun _ hg => ?_⟩
    have hnone := congrArg (·.1.isSome) hr
    exact absurd hg (by rw [Grants]; exact Bool.eq_false_iff.mp hnone)
  | full _ _ _ hfull => exact ⟨rfl, fun _ _ => hfull⟩

theorem Served.outstanding_eq (hv : Served m live n kind none calls live' m') :
    outstanding (calls ++ log) = outstanding log := by
  cases hv <;> simp [outstanding]

namespace Accounted

/-- A request never halts, and it ends in one of four ways. -/
theorem allocZeroed_served (hN : 0 < N) (hs : Separate s₀) (h : Accounted s₀ log live m)
    (n : Nat) (kind : Kind) :
    ∃ block calls live' m', (allocZeroed n kind).run m = .ok block m' ∧
      Served m live n kind block calls live' m' ∧ Accounted s₀ (calls ++ log) live' m' := by
  rcases Nat.lt_or_ge (n + 2 * width) Memory.top with hb | hb
  · rcases hr : BlockSource.alloc m.heap.source m.memory (n + 2 * width) kind with
      ⟨_ | base, source, memory⟩
    · exact ⟨_, _, _, _, allocZeroed_of_refusal hb hr, .refused hb hr,
        h.reaches_alloc hr, h.sound, h.entries_perm, h.outstanding_perm⟩
    · rcases Nat.lt_or_ge m.heap.ledger.entries.length N with hroom | hfull
      · obtain ⟨c, hc, hsound, hp⟩ := Ledger.entering_of_room (e := ⟨base + width, n, kind⟩) hN
          h.sound hroom (h.fits hr hs)
        rw [h.entries_perm.length_eq] at hroom
        exact ⟨_, _, _, _, allocZeroed_of_room hb hr hc, .entered hb hr hroom,
          h.enter hr hsound hp⟩
      · have hc := Ledger.entering_of_full (e := ⟨base + width, n, kind⟩) hN hfull
        rw [h.entries_perm.length_eq] at hfull
        exact ⟨_, _, _, _, allocZeroed_of_full hb hr hc, .full hb hr rfl hfull, h.giveBack hr _⟩
  · exact ⟨_, _, _, _, allocZeroed_of_huge hb, .huge hb, h⟩

theorem alloc_served (hN : 0 < N) (hs : Separate s₀) (h : Accounted s₀ log live m)
    (bytes : Nat) (kind : Kind) :
    ∃ block calls live' m',
      (Heap.alloc bytes kind).run m = .ok (block.elim (.error (.allocation bytes)) .ok) m' ∧
      Served m live (max bytes 1) kind block calls live' m' ∧
      Accounted s₀ (calls ++ log) live' m' := by
  obtain ⟨block, calls, live', m', hrun, hv, hacc⟩ :=
    h.allocZeroed_served hN hs (max bytes 1) kind
  exact ⟨block, calls, live', m', alloc_of_block hrun, hv, hacc⟩

/-- A request fails, and then ledger and outstanding blocks are what they were, or it yields a
pristine block apart from the live ones. It never halts, and it disturbs no live block. -/
theorem allocZeroed_cases (hN : 0 < N) (hs : Lawful s₀) (h : Accounted s₀ log live m)
    (n : Nat) (kind : Kind) :
    (∃ log' memory source,
      (allocZeroed n kind).run m = .ok none { m with memory, heap := { m.heap with source } } ∧
      Accounted s₀ log' live { m with memory, heap := { m.heap with source } } ∧
      outstanding log' = outstanding log ∧ Undisturbed live m.memory memory) ∨
    ∃ a log' memory source ledger,
      (allocZeroed n kind).run m = .ok (some a) { m with memory, heap := ⟨source, ledger⟩ } ∧
      Accounted s₀ log' (⟨a, n, kind⟩ :: live) { m with memory, heap := ⟨source, ledger⟩ } ∧
      Undisturbed live m.memory memory ∧ Pristine ⟨a, n, kind⟩ memory := by
  obtain ⟨block, calls, live', m', hrun, hv, hacc⟩ := h.allocZeroed_served hN hs n kind
  have hu := hv.undisturbed hs h
  cases hv with
  | huge => exact .inl ⟨_, _, _, hrun, hacc, rfl, hu⟩
  | refused => exact .inl ⟨_, _, _, hrun, hacc, rfl, hu⟩
  | full hb hr hg hfull =>
    exact .inl ⟨_, _, _, hrun, hacc, (Served.full hb hr hg hfull).outstanding_eq, hu⟩
  | entered _ hr => exact .inr ⟨_, _, _, _, _, hrun, hacc, hu, h.pristine_fill hs hr⟩

end Accounted

end Served

/-! ## Releases -/

namespace Accounted

variable {s₀ : S} {log : List Event} {live : List Entry} {m : Machine (Guarded N S)} {e : Entry}

section Release

variable (hN : 0 < N) (hs : Separate s₀) (h : Accounted s₀ log live m)
include hN h

theorem isLive_run (a : Nat) :
    (isLive a).run m = .ok (decide (a ∈ live.map Entry.addr)) m := by
  rw [isLive_of_sound hN h.sound, decide_eq_decide.mpr (h.entries_perm.map Entry.addr).mem_iff]

theorem tryRelease_of_not_mem {a : Nat} (ha : a ∉ live.map Entry.addr) :
    (tryRelease a).run m = .ok (.error (.unknown a)) m :=
  tryRelease_of_absent (h.lookup_of_absent hN ha)

include hs

theorem tryRelease_of_mem_damaged (he : e ∈ live) {d : RedZone.Damage}
    (hd : RedZone.check m.memory (e.addr - width) e.size = some d) :
    (tryRelease e.addr).run m = .ok (.error (.damaged e.addr e.size d)) m :=
  tryRelease_of_damage (h.lookup_of_mem hN hs he).1 hd

theorem tryRelease_of_mem_intact (he : e ∈ live)
    (hz : ∀ x, InZone (e.addr - width) e.size x → m.memory.get x = RedZone.canary) :
    ∃ m' log', (tryRelease e.addr).run m = .ok (.ok ()) m' ∧
      BlockSource.release m.heap.source (RedZone.poison m.memory e.addr e.size) (e.addr - width) =
        (m'.heap.source, m'.memory) ∧
      Accounted s₀ log' (live.filter (·.addr != e.addr)) m' := by
  obtain ⟨hl, c, hc, hsound, hp⟩ := h.lookup_of_mem hN hs he
  have hrun := tryRelease_of_intact hl (RedZone.check_eq_none_iff.mpr hz) hc
  exact ⟨_, _, hrun, rfl, h.strike hs he hsound hp _⟩

/-- A release is refused, and then nothing is changed, or it poisons and strikes a live block with
intact zones. -/
theorem tryRelease_cases (a : Nat) :
    (∃ fault, (tryRelease a).run m = .ok (.error fault) m) ∨
    ∃ e ∈ live, e.addr = a ∧
      (∀ x, InZone (e.addr - width) e.size x → m.memory.get x = RedZone.canary) ∧
      ∃ m' log', (tryRelease a).run m = .ok (.ok ()) m' ∧
        BlockSource.release m.heap.source (RedZone.poison m.memory e.addr e.size)
          (e.addr - width) = (m'.heap.source, m'.memory) ∧
        Accounted s₀ log' (live.filter (·.addr != a)) m' := by
  by_cases ha : a ∈ live.map Entry.addr
  · obtain ⟨e, he, rfl⟩ := List.mem_map.mp ha
    rcases hd : RedZone.check m.memory (e.addr - width) e.size with _ | d
    · right
      have hz := RedZone.check_eq_none_iff.mp hd
      exact ⟨e, he, rfl, hz, h.tryRelease_of_mem_intact hN hs he hz⟩
    · left
      exact ⟨_, h.tryRelease_of_mem_damaged hN hs he hd⟩
  · left
    exact ⟨_, h.tryRelease_of_not_mem hN ha⟩

end Release

end Accounted

end Guarded

end HeapGuard
