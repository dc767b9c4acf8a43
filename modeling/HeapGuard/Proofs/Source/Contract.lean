import HeapGuard.Arena
import Mathlib.Algebra.GroupWithZero.Nat
import Mathlib.Data.Finset.Card
import Mathlib.Order.Interval.Finset.Nat

/-! # The contract of block sources

A source is judged by its calls. A block is outstanding if it was handed out and not
taken back. A lawful source hands out zeroed blocks of the size asked for, apart from
all outstanding blocks, and leaves the bytes of these alone, also when it takes a block
back. What it does to a block that it has taken back is its own affair. It may rely on
being asked for at least one byte and on being given back only blocks that are outstanding.
-/

namespace HeapGuard

open Arena (Event)

namespace Block

def Covers (b : Block) (x : Nat) : Prop := b.addr ≤ x ∧ x < b.addr + b.size

def Apart (b c : Block) : Prop := b.addr + b.size ≤ c.addr ∨ c.addr + c.size ≤ b.addr

theorem Apart.symm {b c : Block} (h : b.Apart c) : c.Apart b := Or.symm h

instance : Std.Symm Apart := ⟨fun _ _ => Apart.symm⟩

theorem Apart.not_covers {b c : Block} (h : b.Apart c) {x : Nat} (hx : b.Covers x) :
    ¬ c.Covers x := by
  unfold Apart at h
  unfold Covers at hx ⊢
  omega

def cover : List Block → Finset Nat
  | [] => ∅
  | b :: bs => Finset.Ico b.addr (b.addr + b.size) ∪ cover bs

theorem mem_cover {bs : List Block} {x : Nat} : x ∈ cover bs ↔ ∃ b ∈ bs, b.Covers x := by
  induction bs with
  | nil => simp [cover]
  | cons b bs ih => simp [cover, ih, Covers]

theorem card_cover {bs : List Block} (h : bs.Pairwise Apart) :
    (cover bs).card = (bs.map size).sum := by
  induction bs with
  | nil => rfl
  | cons b bs ih =>
    obtain ⟨hb, hbs⟩ := List.pairwise_cons.mp h
    have hd : Disjoint (Finset.Ico b.addr (b.addr + b.size)) (cover bs) := by
      rw [Finset.disjoint_left]
      intro x hx hc
      obtain ⟨c, hc, hcx⟩ := mem_cover.mp hc
      exact (hb c hc).not_covers (Finset.mem_Ico.mp hx) hcx
    rw [cover, Finset.card_union_of_disjoint hd, ih hbs, Nat.card_Ico, List.map_cons, List.sum_cons]
    omega

/-- Blocks that lie apart have no more bytes than there are addresses. -/
theorem sum_size_le_top {bs : List Block} (h : bs.Pairwise Apart)
    (hw : ∀ b ∈ bs, b.addr + b.size ≤ Memory.top) : (bs.map size).sum ≤ Memory.top := by
  rw [← card_cover h, ← Finset.card_range Memory.top]
  apply Finset.card_le_card
  intro x hx
  obtain ⟨b, hb, hbx⟩ := mem_cover.mp hx
  have := hw b hb
  unfold Covers at hbx
  rw [Finset.mem_range]
  omega

theorem eraseP_eq_filter {bs : List Block} (h : (bs.map addr).Nodup) (a : Nat) :
    bs.eraseP (·.addr == a) = bs.filter (·.addr != a) := by
  induction bs with
  | nil => rfl
  | cons b bs ih =>
    obtain ⟨hb, hbs⟩ := List.nodup_cons.mp h
    by_cases ha : b.addr = a
    · have hall : ∀ c ∈ bs, (c.addr != a) = true := by
        intro c hc
        have hne : c.addr ≠ a := fun he => hb (ha ▸ he ▸ List.mem_map_of_mem hc)
        simpa using hne
      simp [ha, List.filter_eq_self.mpr hall]
    · simp [ha, ih hbs]

end Block

namespace BlockSource

/-- The blocks handed out and not taken back, by a record of calls, the last one first. -/
def outstanding : List Event → List Block
  | [] => []
  | .alloc bytes _ (some a) :: log => ⟨a, bytes⟩ :: outstanding log
  | .alloc _ _ none :: log => outstanding log
  | .release a :: log => (outstanding log).eraseP (·.addr == a)

variable {S : Type} [BlockSource S]

/-- The calls lead from one state of a source to another; only outstanding blocks are given back. -/
inductive Reaches (s₀ : S) : List Event → S → Prop
  | start : Reaches s₀ [] s₀
  | alloc {log : List Event} {s : S} {bytes : Nat} (h : Reaches s₀ log s) (hb : 0 < bytes)
      (m : Memory) (kind : Kind) :
      Reaches s₀ (.alloc bytes kind (alloc s m bytes kind).1 :: log) (alloc s m bytes kind).2.1
  | release {log : List Event} {s : S} {b : Block} (h : Reaches s₀ log s)
      (hb : b ∈ outstanding log) (m : Memory) :
      Reaches s₀ (.release b.addr :: log) (release s m b.addr).1

/-- The source keeps its contract from `s₀` on, whatever is written to memory between the calls. -/
structure Lawful (s₀ : S) : Prop where
  alloc_some : ∀ {log s m bytes kind a s' m'}, Reaches s₀ log s → 0 < bytes →
    alloc s m bytes kind = (some a, s', m') →
      0 < a ∧ a + bytes ≤ Memory.top ∧ (∀ x, a ≤ x → x < a + bytes → m'.get x = 0) ∧
        ∀ b ∈ outstanding log, Block.Apart ⟨a, bytes⟩ b
  alloc_frame : ∀ {log s bytes}, Reaches s₀ log s → 0 < bytes → ∀ m kind,
    ∀ b ∈ outstanding log, ∀ x, b.Covers x → (alloc s m bytes kind).2.2.get x = m.get x
  release_frame : ∀ {log s b}, Reaches s₀ log s → b ∈ outstanding log → ∀ m,
    ∀ c ∈ outstanding (.release b.addr :: log), ∀ x, c.Covers x →
      (release s m b.addr).2.get x = m.get x

variable {s₀ s : S} {log : List Event}

theorem Lawful.pairwise_outstanding (hs : Lawful s₀) (h : Reaches s₀ log s) :
    (outstanding log).Pairwise Block.Apart := by
  induction h with
  | start => exact .nil
  | @alloc log s bytes h hb m kind ih =>
    rcases ha : alloc s m bytes kind with ⟨_ | a, s', m'⟩
    · exact ih
    · exact .cons (hs.alloc_some h hb ha).2.2.2 ih
  | release h hb m ih => exact ih.sublist List.eraseP_sublist

theorem Lawful.of_mem_outstanding (hs : Lawful s₀) (h : Reaches s₀ log s) {b : Block}
    (hb : b ∈ outstanding log) : 0 < b.addr ∧ 0 < b.size ∧ b.addr + b.size ≤ Memory.top := by
  induction h with
  | start => cases hb
  | @alloc log s bytes h hpos m kind ih =>
    rcases ha : alloc s m bytes kind with ⟨_ | a, s', m'⟩
    · rw [ha] at hb
      exact ih hb
    · rw [ha] at hb
      obtain ⟨h₁, h₂, -⟩ := hs.alloc_some h hpos ha
      rcases List.mem_cons.mp hb with rfl | hb
      · exact ⟨h₁, hpos, h₂⟩
      · exact ih hb
  | release h _ _ ih => exact ih (List.mem_of_mem_eraseP hb)

/-- The part of the contract that is about addresses alone: outstanding blocks lie apart from each
other, within memory and not at address zero. -/
structure Separate (s₀ : S) : Prop where
  pairwise_outstanding : ∀ {log s}, Reaches s₀ log s → (outstanding log).Pairwise Block.Apart
  within : ∀ {log s b}, Reaches s₀ log s → b ∈ outstanding log →
    0 < b.addr ∧ b.addr + b.size ≤ Memory.top

theorem Lawful.separate (hs : Lawful s₀) : Separate s₀ where
  pairwise_outstanding := hs.pairwise_outstanding
  within h hb := by
    obtain ⟨hpos, -, htop⟩ := hs.of_mem_outstanding h hb
    exact ⟨hpos, htop⟩

instance : Coe (Lawful s₀) (Separate s₀) := ⟨Lawful.separate⟩

theorem Reaches.size_pos (h : Reaches s₀ log s) {b : Block} (hb : b ∈ outstanding log) :
    0 < b.size := by
  induction h with
  | start => cases hb
  | @alloc log s bytes h hpos m kind ih =>
    rcases ha : BlockSource.alloc s m bytes kind with ⟨_ | a, s', m'⟩
    · rw [ha] at hb
      exact ih hb
    · rw [ha] at hb
      rcases List.mem_cons.mp hb with rfl | hb
      · exact hpos
      · exact ih hb
  | release h _ _ ih => exact ih (List.mem_of_mem_eraseP hb)

theorem Separate.nodup_outstanding (hs : Separate s₀) (h : Reaches s₀ log s) :
    ((outstanding log).map Block.addr).Nodup := by
  rw [List.Nodup, List.pairwise_map]
  refine (hs.pairwise_outstanding h).imp_of_mem fun {b c} hb hc hbc he => ?_
  have hb' := h.size_pos hb
  have hc' := h.size_pos hc
  unfold Block.Apart at hbc
  omega

theorem Lawful.nodup_outstanding (hs : Lawful s₀) (h : Reaches s₀ log s) :
    ((outstanding log).map Block.addr).Nodup :=
  hs.separate.nodup_outstanding h

theorem Lawful.sum_size_le_top (hs : Lawful s₀) (h : Reaches s₀ log s) {bs : List Block}
    (hsub : bs ⊆ outstanding log) (hn : (bs.map Block.addr).Nodup) :
    (bs.map Block.size).sum ≤ Memory.top := by
  refine Block.sum_size_le_top ?_ fun b hb => (hs.of_mem_outstanding h (hsub hb)).2.2
  refine (List.pairwise_map.mp hn).imp_of_mem fun {b c} hb hc hne => ?_
  exact (hs.pairwise_outstanding h).forall (hsub hb) (hsub hc) fun hbc => hne (hbc ▸ rfl)

theorem Reaches.of_append {later earlier : List Event} (h : Reaches s₀ (later ++ earlier) s) :
    ∃ s', Reaches s₀ earlier s' := by
  induction later generalizing s with
  | nil => exact ⟨s, h⟩
  | cons e later ih =>
    cases h with
    | alloc h _ _ _ => exact ih h
    | release h _ _ => exact ih h

theorem Reaches.mem_outstanding_of_release {later earlier : List Event} {a : Nat}
    (h : Reaches s₀ (later ++ .release a :: earlier) s) :
    a ∈ (outstanding earlier).map Block.addr := by
  obtain ⟨s', h'⟩ := h.of_append
  cases h' with
  | release _ hb _ => exact List.mem_map_of_mem hb

/-- A block given back must be handed out again before its address is outstanding again. -/
theorem exists_alloc_of_mem_outstanding {mid earlier : List Event} {a : Nat}
    (hm : a ∈ (outstanding (mid ++ earlier)).map Block.addr)
    (hn : a ∉ (outstanding earlier).map Block.addr) :
    ∃ bytes kind, .alloc bytes kind (some a) ∈ mid := by
  induction mid with
  | nil => exact absurd hm hn
  | cons e mid ih =>
    have later (hm : a ∈ (outstanding (mid ++ earlier)).map Block.addr) :
        ∃ bytes kind, .alloc bytes kind (some a) ∈ e :: mid := by
      obtain ⟨bytes, kind, h⟩ := ih hm
      exact ⟨bytes, kind, List.mem_cons_of_mem _ h⟩
    match e, hm with
    | .alloc bytes kind (some a'), hm =>
      rcases List.mem_cons.mp hm with rfl | hm
      · exact ⟨bytes, kind, List.mem_cons_self⟩
      · exact later hm
    | .alloc _ _ none, hm => exact later hm
    | .release _, hm => exact later ((List.eraseP_sublist.map Block.addr).subset hm)

/-- Between two returns of one address it is handed out again. -/
theorem Lawful.exists_alloc_between (hs : Lawful s₀) {later mid earlier : List Event} {a : Nat}
    (h : Reaches s₀ (later ++ .release a :: (mid ++ .release a :: earlier)) s) :
    ∃ bytes kind, .alloc bytes kind (some a) ∈ mid := by
  refine exists_alloc_of_mem_outstanding h.mem_outstanding_of_release ?_
  obtain ⟨s₂, h₂⟩ := h.of_append
  rw [← List.cons_append] at h₂
  obtain ⟨s₁, h₁⟩ := h₂.of_append
  cases h₁ with
  | release h₁ _ _ =>
    rw [outstanding, Block.eraseP_eq_filter (hs.nodup_outstanding h₁)]
    simp

end BlockSource

/-- A source that passes every call on and writes it down, the last one first. -/
structure Logged (S : Type) where
  source : S
  log : List Event

namespace Logged

open BlockSource

variable {S : Type} [BlockSource S] {s₀ : S} {s : Logged S} {log : List Event}

instance : BlockSource (Logged S) where
  alloc s m bytes kind :=
    let (block, source, m) := alloc s.source m bytes kind
    (block, ⟨source, .alloc bytes kind block :: s.log⟩, m)
  release s m addr :=
    let (source, m) := release s.source m addr
    (⟨source, .release addr :: s.log⟩, m)

theorem of_reaches (h : Reaches (⟨s₀, []⟩ : Logged S) log s) :
    s.log = log ∧ Reaches s₀ log s.source := by
  induction h with
  | start => exact ⟨rfl, .start⟩
  | alloc h hb m kind ih => exact ⟨congrArg _ ih.1, ih.2.alloc hb m kind⟩
  | release h hb m ih => exact ⟨congrArg _ ih.1, ih.2.release hb m⟩

theorem lawful (hs : Lawful s₀) : Lawful (⟨s₀, []⟩ : Logged S) where
  alloc_some h hb ha := by
    obtain ⟨ha₁, ha₂⟩ := Prod.mk.inj ha
    obtain ⟨-, ha₃⟩ := Prod.mk.inj ha₂
    exact hs.alloc_some (of_reaches h).2 hb (Prod.ext ha₁ (Prod.ext rfl ha₃))
  alloc_frame h := hs.alloc_frame (of_reaches h).2
  release_frame h := hs.release_frame (of_reaches h).2

theorem separate (hs : Separate s₀) : Separate (⟨s₀, []⟩ : Logged S) where
  pairwise_outstanding h := hs.pairwise_outstanding (of_reaches h).2
  within h := hs.within (of_reaches h).2

end Logged

end HeapGuard
