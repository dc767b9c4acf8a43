import HeapGuard.Contention
import HeapGuard.Proofs.Guarded.Accounts

/-! # Blocks shared by threads

Between two steps a thread may hold a block of the source that is not in the ledger: it has
not entered it yet, or has struck it already. Every outstanding block is held by one
thread or live in the ledger, never both and never twice. Each step of a thread keeps this, so
what it writes goes to a block that nobody else has.
-/

namespace HeapGuard.Contention

open Arena (Event)
open BlockSource (Reaches Lawful outstanding)
open RedZone (width InZone)
open scoped List

/-- A block of the source that a thread or the ledger has. -/
inductive Holding where
  /-- The zones around `size` bytes are intact. -/
  | guarded (base size : Nat)
  | bare (base size : Nat)
  /-- All that is left to do is to give the block back. -/
  | spent (base : Nat)

namespace Holding

def base : Holding → Nat
  | guarded base _ | bare base _ | spent base => base

/-- The block is there and holds what it should. -/
def Backed (blocks : List Block) (memory : Memory) : Holding → Prop
  | guarded base n => ⟨base, n + 2 * width⟩ ∈ blocks ∧
      ∀ x, InZone base n x → memory.get x = RedZone.canary
  | bare base n => ⟨base, n + 2 * width⟩ ∈ blocks
  | spent _ => True

theorem covers_of_inZone {base n x : Nat} (h : InZone base n x) :
    Block.Covers ⟨base, n + 2 * width⟩ x := by
  simp only [InZone] at h
  simp only [Block.Covers]
  omega

theorem Backed.mono {blocks blocks' : List Block} {memory memory' : Memory} {g : Holding}
    (h : g.Backed blocks memory) (hg : ∀ b ∈ blocks, b.addr = g.base →
      b ∈ blocks' ∧ ∀ x, b.Covers x → memory'.get x = memory.get x) :
    g.Backed blocks' memory' := by
  cases g with
  | guarded base n =>
    obtain ⟨hb, hz⟩ := h
    obtain ⟨hb', hm⟩ := hg _ hb rfl
    refine ⟨hb', fun x hx => ?_⟩
    rw [hm x (covers_of_inZone hx), hz x hx]
  | bare base n => exact (hg _ h rfl).1
  | spent base => trivial

end Holding

/-- The blocks are those of the holdings, each held once. -/
structure Backs (blocks : List Block) (memory : Memory) (held : List Holding) : Prop where
  addr_perm : blocks.map Block.addr ~ held.map Holding.base
  backed : ∀ g ∈ held, g.Backed blocks memory

namespace Backs

variable {blocks : List Block} {memory memory' : Memory} {held : List Holding} {g g' : Holding}

theorem perm {held' : List Holding} (h : Backs blocks memory held) (hp : held ~ held') :
    Backs blocks memory held' where
  addr_perm := h.addr_perm.trans (hp.map _)
  backed g hg := h.backed g (hp.symm.subset hg)

theorem of_frame (h : Backs blocks memory held)
    (hm : ∀ b ∈ blocks, ∀ x, b.Covers x → memory'.get x = memory.get x) :
    Backs blocks memory' held where
  addr_perm := h.addr_perm
  backed g hg := (h.backed g hg).mono fun b hb _ => ⟨hb, hm b hb⟩

theorem alloc (h : Backs blocks memory held) (base n : Nat)
    (hm : ∀ b ∈ blocks, ∀ x, b.Covers x → memory'.get x = memory.get x) :
    Backs (⟨base, n + 2 * width⟩ :: blocks) memory' (.bare base n :: held) where
  addr_perm := h.addr_perm.cons base
  backed := by
    rw [List.forall_mem_cons]
    refine ⟨List.mem_cons_self, fun g hg => (h.backed g hg).mono fun b hb _ => ?_⟩
    exact ⟨List.mem_cons_of_mem _ hb, hm b hb⟩

variable (hn : (blocks.map Block.addr).Nodup) (h : Backs blocks memory (g :: held))
include hn h

theorem base_ne (hg' : g' ∈ held) : g'.base ≠ g.base := by
  have hnodup : (g.base :: held.map Holding.base).Nodup := h.addr_perm.nodup_iff.mp hn
  intro heq
  exact (List.nodup_cons.mp hnodup).1 (heq ▸ List.mem_map_of_mem hg')

theorem giveBack : Backs (blocks.eraseP (·.addr == g.base)) memory held where
  addr_perm := by
    have hkeep : (held.map Holding.base).filter (· != g.base) = held.map Holding.base := by
      rw [List.filter_eq_self]
      intro a ha
      obtain ⟨g', hg', rfl⟩ := List.mem_map.mp ha
      exact bne_iff_ne.mpr (h.base_ne hn hg')
    have hp := h.addr_perm.filter (· != g.base)
    rw [List.map_cons, List.filter_cons_of_neg (by simp), hkeep, List.filter_map] at hp
    rwa [Block.eraseP_eq_filter hn]
  backed g' hg' := by
    refine (h.backed g' (List.mem_cons_of_mem _ hg')).mono fun b hb hbase => ?_
    rw [Block.eraseP_eq_filter hn, List.mem_filter, hbase]
    exact ⟨⟨hb, bne_iff_ne.mpr (h.base_ne hn hg')⟩, fun _ _ => rfl⟩

theorem write (hap : blocks.Pairwise Block.Apart) {b : Block} (hb : b ∈ blocks)
    (hbg : b.addr = g.base) (hm : ∀ x, ¬ b.Covers x → memory'.get x = memory.get x)
    (hbase : g'.base = g.base) (hg' : g'.Backed blocks memory') :
    Backs blocks memory' (g' :: held) where
  addr_perm := by
    rw [List.map_cons, hbase]
    exact h.addr_perm
  backed := by
    rw [List.forall_mem_cons]
    refine ⟨hg', fun g₁ hg₁ => ?_⟩
    refine (h.backed g₁ (List.mem_cons_of_mem _ hg₁)).mono fun c hc hcg => ⟨hc, fun x hx => ?_⟩
    -- the others hold blocks at other addresses, and these lie apart
    have hne : c ≠ b := by
      rintro rfl
      exact h.base_ne hn hg₁ (hcg.symm.trans hbg)
    exact hm x ((hap.forall hc hb hne).not_covers hx)

end Backs

/-- What a thread holds between two steps. -/
def Phase.holding : Phase → Option Holding
  | ready _ | done _ => none
  | reserved base n _ => some (.bare base n)
  | filled base n _ => some (.guarded base n)
  | refused base => some (.spent base)
  | struck a n => some (.bare (a - width) n)
  | poisoned a => some (.spent (a - width))

def holdings (entries : List Entry) (threads : List Phase) : List Holding :=
  threads.filterMap Phase.holding ++ entries.map fun e => .guarded (e.addr - width) e.size

theorem holdings_cons (E : List Entry) (p : Phase) (rest : List Phase) :
    holdings E (p :: rest) = p.holding.toList ++ holdings E rest := by
  cases hp : p.holding <;> simp [holdings, hp]

theorem holdings_perm {E E' : List Entry} {e : Entry} (h : E ~ e :: E') (threads : List Phase) :
    holdings E threads ~ .guarded (e.addr - width) e.size :: holdings E' threads :=
  ((h.map _).append_left _).trans List.perm_middle

variable {N : Nat} {S : Type} [BlockSource S]

/-- The outstanding blocks of the source are held by the threads or live in the ledger. -/
structure Shared (s₀ : S) (log : List Event) (threads : List Phase) (m : Machine (Guarded N S)) :
    Prop where
  reaches : Reaches s₀ log m.heap.source
  sound : m.heap.ledger.Sound
  backs : Backs (outstanding log) m.memory (holdings m.heap.ledger.entries threads)

/-- What a step of a thread can do to the ledger, and how the thread goes on. -/
inductive Move : List Entry → Phase → Phase → List Entry → Prop
  | unserved {E : List Entry} {n : Nat} {k : Kind} :
      Move E (.ready (.alloc n k)) (.done (.allocated none)) E
  | reserve {E : List Entry} {n : Nat} {k : Kind} (base : Nat) :
      Move E (.ready (.alloc n k)) (.reserved base n k) E
  | fill {E : List Entry} {base n : Nat} {k : Kind} :
      Move E (.reserved base n k) (.filled base n k) E
  | enter {E E' : List Entry} {base n : Nat} {k : Kind} (ha : base + width ∉ E.map Entry.addr)
      (hp : E' ~ ⟨base + width, n, k⟩ :: E) :
      Move E (.filled base n k) (.done (.allocated (some (base + width)))) E'
  | full {E : List Entry} {base n : Nat} {k : Kind} : Move E (.filled base n k) (.refused base) E
  | putBack {E : List Entry} {base : Nat} : Move E (.refused base) (.done (.allocated none)) E
  | strike {E E' : List Entry} {e : Entry} (ha : e.addr ∉ E'.map Entry.addr) (hp : E ~ e :: E') :
      Move E (.ready (.release e.addr)) (.struck e.addr e.size) E'
  | miss {E : List Entry} {a : Nat} (ha : a ∉ E.map Entry.addr) :
      Move E (.ready (.release a)) (.done (.released (.error (.unknown a)))) E
  | poison {E : List Entry} {a n : Nat} : Move E (.struck a n) (.poisoned a) E
  | giveBack {E : List Entry} {a : Nat} : Move E (.poisoned a) (.done (.released (.ok ()))) E
  | rest {E : List Entry} {r : Result} : Move E (.done r) (.done r) E

namespace Shared

variable {s₀ : S} {log : List Event} {threads rest : List Phase} {m : Machine (Guarded N S)}
  {p q : Phase} {i : Nat}

theorem new {m : Machine (Guarded N S)} (h : m.heap = .new N s₀) (jobs : List Job) :
    Shared s₀ [] (jobs.map .ready) m where
  reaches := by rw [h]; exact .start
  sound := by rw [h]; exact Ledger.sound_empty N
  backs := by
    have hnone : (jobs.map Phase.ready).filterMap Phase.holding = [] := by
      rw [List.filterMap_eq_nil_iff]
      intro p hp
      obtain ⟨job, -, rfl⟩ := List.mem_map.mp hp
      rfl
    rw [h, holdings, hnone, Guarded.new, Ledger.entries_empty]
    exact ⟨.nil, by simp⟩

theorem perm {threads' : List Phase} (h : Shared s₀ log threads m) (hp : threads ~ threads') :
    Shared s₀ log threads' m where
  reaches := h.reaches
  sound := h.sound
  backs := h.backs.perm ((hp.filterMap _).append_right _)

theorem first (h : Shared s₀ log threads m) (hi : threads[i]? = some p) :
    Shared s₀ log (p :: threads.eraseIdx i) m := by
  obtain ⟨hlt, rfl⟩ := List.getElem?_eq_some_iff.mp hi
  exact h.perm (List.getElem_cons_eraseIdx_perm hlt).symm

theorem extent_mem (h : Shared s₀ log threads m) {e : Entry} (he : e ∈ m.heap.ledger.entries) :
    e.extent ∈ outstanding log :=
  (h.backs.backed _ (List.mem_append_right _ (List.mem_map_of_mem he))).1

theorem of_holding_eq (h : Shared s₀ log (p :: rest) m) (hpq : q.holding = p.holding) :
    Shared s₀ log (q :: rest) m where
  reaches := h.reaches
  sound := h.sound
  backs := by
    rw [holdings_cons, hpq, ← holdings_cons]
    exact h.backs

section Held

variable {base n : Nat} (h : Shared s₀ log (p :: rest) m)
include h

theorem backs_cons {g : Holding} (hp : p.holding = some g) :
    Backs (outstanding log) m.memory (g :: holdings m.heap.ledger.entries rest) := by
  have hb := h.backs
  rwa [holdings_cons, hp] at hb

theorem write (hs : Lawful s₀) (hp : p.holding = some (.bare base n)) {memory : Memory}
    (hm : ∀ x, ¬ Block.Covers ⟨base, n + 2 * width⟩ x → memory.get x = m.memory.get x)
    {g : Holding} (hq : q.holding = some g) (hbase : g.base = base)
    (hg : g.Backed (outstanding log) memory) : Shared s₀ log (q :: rest) { m with memory } := by
  have hb := h.backs_cons hp
  refine ⟨h.reaches, h.sound, ?_⟩
  rw [holdings_cons, hq]
  exact hb.write (hs.nodup_outstanding h.reaches) (hs.pairwise_outstanding h.reaches)
    (hb.backed _ List.mem_cons_self) rfl hm hbase hg

end Held

theorem giveBack {base : Nat} (hs : Lawful s₀) (h : Shared s₀ log (p :: rest) m)
    (hp : p.holding = some (.spent base)) (hq : q.holding = none) :
    let r := BlockSource.release m.heap.source m.memory base
    Shared s₀ (.release base :: log) (q :: rest)
      { m with heap := { m.heap with source := r.1 }, memory := r.2 } := by
  have hb := h.backs_cons hp
  obtain ⟨b, hmem, rfl⟩ : ∃ b ∈ outstanding log, b.addr = base :=
    List.mem_map.mp (hb.addr_perm.symm.subset List.mem_cons_self)
  refine ⟨h.reaches.release hmem m.memory, h.sound, ?_⟩
  rw [holdings_cons, hq]
  have hback := hb.giveBack (hs.nodup_outstanding h.reaches)
  exact hback.of_frame (hs.release_frame h.reaches hmem m.memory)

def Steps (s₀ : S) (rest : List Phase) (m : Machine (Guarded N S)) (p : Phase) : Prop :=
  ∃ q m' log', p.step.run m = .ok q m' ∧ Shared s₀ log' (q :: rest) m' ∧
    Move m.heap.ledger.entries p q m'.heap.ledger.entries

section Steps

variable (hs : Lawful s₀) {n base a : Nat} {k : Kind}
include hs

theorem steps_alloc (h : Shared s₀ log (.ready (.alloc n k) :: rest) m) :
    Steps s₀ rest m (.ready (.alloc n k)) := by
  rcases Nat.lt_or_ge (n + 2 * width) Memory.top with hb | hb
  · rcases hr : BlockSource.alloc m.heap.source m.memory (n + 2 * width) k with
      ⟨_ | base, source, memory⟩
    all_goals
      have hreach := h.reaches.alloc (RedZone.total_pos n) m.memory k
      have hframe := hs.alloc_frame h.reaches (RedZone.total_pos n) m.memory k
      rw [hr] at hreach hframe
    · refine ⟨.done (.allocated none), { m with memory, heap := { m.heap with source } }, _, ?_,
        ⟨hreach, h.sound, h.backs.of_frame hframe⟩, .unserved⟩
      simp [Phase.step, Nat.not_le.mpr hb, Guarded.reserve, hr]
    · refine ⟨.reserved base n k, { m with memory, heap := { m.heap with source } }, _, ?_,
        ⟨hreach, h.sound, h.backs.alloc base n hframe⟩, .reserve base⟩
      simp [Phase.step, Nat.not_le.mpr hb, Guarded.reserve, hr]
  · refine ⟨.done (.allocated none), m, log, ?_, h.of_holding_eq rfl, .unserved⟩
    simp [Phase.step, hb]

theorem steps_fill (h : Shared s₀ log (.reserved base n k :: rest) m) :
    Steps s₀ rest m (.reserved base n k) := by
  have hb : ⟨base, n + 2 * width⟩ ∈ outstanding log :=
    (h.backs_cons rfl).backed _ List.mem_cons_self
  have htop := (hs.of_mem_outstanding h.reaches hb).2.2
  dsimp only at htop
  refine ⟨.filled base n k, { m with memory := RedZone.fill m.memory base n }, log, rfl, ?_, .fill⟩
  refine h.write hs rfl (fun x hx => ?_) rfl rfl ⟨hb, fun x hx => ?_⟩
  · exact RedZone.get_fill_of_not_inZone (by omega) fun hz => hx (Holding.covers_of_inZone hz)
  · exact RedZone.get_fill_of_inZone (by omega) hx

theorem steps_poison (h : Shared s₀ log (.struck a n :: rest) m) :
    Steps s₀ rest m (.struck a n) := by
  have hb : ⟨a - width, n + 2 * width⟩ ∈ outstanding log :=
    (h.backs_cons rfl).backed _ List.mem_cons_self
  have hpos := (hs.of_mem_outstanding h.reaches hb).1
  dsimp only at hpos
  refine ⟨.poisoned a, { m with memory := RedZone.poison m.memory a n }, log, rfl, ?_, .poison⟩
  refine h.write hs rfl (fun x hx => ?_) rfl rfl trivial
  refine RedZone.get_poison_of_outside ?_
  simp only [Block.Covers] at hx
  omega

/-- The totals have room for a block that a thread holds: it lies apart from the live ones. -/
theorem fits (h : Shared s₀ log (.filled base n k :: rest) m) :
    m.heap.ledger.liveBytes + n < 2 ^ 64 := by
  have hb := h.backs_cons rfl
  have hsub : (⟨base, n + 2 * width⟩ : Block) :: m.heap.ledger.entries.map Entry.extent ⊆
      outstanding log := by
    rw [List.cons_subset, List.subset_def, List.forall_mem_map]
    exact ⟨(hb.backed _ List.mem_cons_self).1, fun e he => h.extent_mem he⟩
  have hn : (base :: (m.heap.ledger.entries.map Entry.extent).map Block.addr).Nodup := by
    have hall := hb.addr_perm.nodup_iff.mp (hs.nodup_outstanding h.reaches)
    rw [List.map_cons, holdings, List.map_append, List.map_map] at hall
    rw [List.map_map]
    exact hall.sublist ((List.sublist_append_right _ _).cons_cons _)
  have htop := hs.sum_size_le_top h.reaches hsub hn
  rw [List.map_cons, List.sum_cons, Entry.sum_size_extent, ← h.sound.liveBytes_eq] at htop
  simp only [Memory.top, width] at htop
  omega

variable (hN : 0 < N)
include hN

theorem steps_enroll (h : Shared s₀ log (.filled base n k :: rest) m) :
    Steps s₀ rest m (.filled base n k) := by
  rcases Nat.lt_or_ge m.heap.ledger.entries.length N with hroom | hfull
  · have hb := h.backs_cons rfl
    obtain ⟨c, hc, hsound, hp⟩ := Ledger.entering_of_room (e := ⟨base + width, n, k⟩) hN h.sound
      hroom (h.fits hs)
    have ha : base + width ∉ m.heap.ledger.entries.map Entry.addr := by
      intro ha
      obtain ⟨e, he, hea⟩ := List.mem_map.mp ha
      have hne := hb.base_ne (hs.nodup_outstanding h.reaches)
        (List.mem_append_right _ (List.mem_map_of_mem he))
      simp [Holding.base, hea] at hne
    refine ⟨.done (.allocated (some (base + width))),
      { m with heap := { m.heap with ledger := m.heap.ledger.apply c } }, log, ?_,
      ⟨h.reaches, hsound, ?_⟩, .enter ha hp⟩
    · simp [Phase.step, Guarded.enroll, hc, Guarded.amend]
    · refine hb.perm ((holdings_perm hp rest).trans (.of_eq ?_)).symm
      rw [Nat.add_sub_cancel]
  · have hc := Ledger.entering_of_full (e := ⟨base + width, n, k⟩) hN hfull
    refine ⟨.refused base, m, log, ?_, ?_, .full⟩
    · simp [Phase.step, Guarded.enroll, hc]
    · have hb := h.backs_cons rfl
      exact ⟨h.reaches, h.sound, hb.addr_perm, List.forall_mem_cons.mpr
        ⟨trivial, (List.forall_mem_cons.mp hb.backed).2⟩⟩

theorem steps_strike (h : Shared s₀ log (.ready (.release a) :: rest) m) :
    Steps s₀ rest m (.ready (.release a)) := by
  by_cases ha : a ∈ m.heap.ledger.entries.map Entry.addr
  · obtain ⟨d, hd, rfl⟩ := List.mem_map.mp ha
    obtain ⟨j, e, hf, hj, hea⟩ := Ledger.find_of_mem hN h.sound hd rfl
    obtain ⟨c, hc, hsound, hp⟩ := h.sound.striking_of_find hf hj
    rw [← hea] at hf hc ⊢
    -- the block of the entry passes from the ledger to the thread
    have hn := hs.nodup_outstanding h.reaches
    have hb := h.backs.perm (holdings_perm hp rest)
    obtain ⟨hmem, hz⟩ := hb.backed _ List.mem_cons_self
    have habsent : e.addr ∉ (m.heap.ledger.apply c).entries.map Entry.addr := by
      intro ha
      obtain ⟨e', he', heq⟩ := List.mem_map.mp ha
      have hne := hb.base_ne hn (List.mem_append_right _ (List.mem_map_of_mem he'))
      simp [Holding.base, heq] at hne
    have hrun := Guarded.strike_of_intact (Ledger.lookup_eq_of_find hf)
      (RedZone.check_eq_none_iff.mpr hz) hc
    refine ⟨.struck e.addr e.size,
      { m with heap := { m.heap with ledger := m.heap.ledger.apply c } }, log, ?_,
      ⟨h.reaches, hsound, ?_⟩, .strike habsent hp⟩
    · simp [Phase.step, hrun]
    · exact hb.write hn (hs.pairwise_outstanding h.reaches) hmem rfl (fun _ _ => rfl) rfl hmem
  · have habsent : ∀ e ∈ m.heap.ledger.entries, e.addr ≠ a := fun e he heq =>
      ha (heq ▸ List.mem_map_of_mem he)
    have hrun := Guarded.strike_of_absent
      (Ledger.lookup_eq_of_find (Ledger.find_of_absent hN habsent))
    refine ⟨.done (.released (.error (.unknown a))), m, log, ?_, h.of_holding_eq rfl, .miss ha⟩
    simp [Phase.step, hrun]

/-- No step halts, whatever the phase. -/
theorem steps (h : Shared s₀ log (p :: rest) m) : Steps s₀ rest m p := by
  cases p with
  | ready job =>
    cases job with
    | alloc n k => exact h.steps_alloc hs
    | release a => exact h.steps_strike hs hN
  | reserved base n k => exact h.steps_fill hs
  | filled base n k => exact h.steps_enroll hs hN
  | refused base => exact ⟨_, _, _, rfl, h.giveBack hs rfl rfl, .putBack⟩
  | struck a n => exact h.steps_poison hs
  | poisoned a => exact ⟨_, _, _, rfl, h.giveBack hs rfl rfl, .giveBack⟩
  | done r => exact ⟨_, _, _, rfl, h, .rest⟩

theorem turn (h : Shared s₀ log threads m) (hi : threads[i]? = some p) :
    ∃ q m' log', p.step.run m = .ok q m' ∧ Shared s₀ log' (threads.set i q) m' ∧
      Move m.heap.ledger.entries p q m'.heap.ledger.entries := by
  obtain ⟨q, m', log', hrun, h', hmove⟩ := (h.first hi).steps hs hN
  have hlt := (List.getElem?_eq_some_iff.mp hi).1
  exact ⟨q, m', log', hrun, h'.perm (List.set_perm_cons_eraseIdx hlt q).symm, hmove⟩

end Steps

theorem of_bare (hs : Lawful s₀) (h : Shared s₀ log threads m) (hi : threads[i]? = some p)
    {base n : Nat} (hb : p.holding = some (.bare base n)) :
    ⟨base, n + 2 * width⟩ ∈ outstanding log ∧
      ∀ e ∈ m.heap.ledger.entries, e.extent.addr ≠ base ∧ e.extent.Apart ⟨base, n + 2 * width⟩ := by
  have hback := (h.first hi).backs_cons hb
  have hmem : ⟨base, n + 2 * width⟩ ∈ outstanding log := hback.backed _ List.mem_cons_self
  refine ⟨hmem, fun e he => ?_⟩
  have hne : e.extent.addr ≠ base := hback.base_ne (hs.nodup_outstanding h.reaches)
    (List.mem_append_right _ (List.mem_map_of_mem he))
  exact ⟨hne, (hs.pairwise_outstanding h.reaches).forall (h.extent_mem he) hmem
    fun heq => hne (congrArg Block.addr heq)⟩

end Shared

end HeapGuard.Contention
