import HeapGuard.Proofs.Source.Contract
import Mathlib.Data.List.Forall2

/-! # The arena keeps the contract

The blocks that an arena has handed out and those it keeps for reuse lie apart from each
other below its frontier, so an arena that fits into memory is a lawful source, whether it
reuses blocks or not and whichever of its calls fail.
-/

namespace HeapGuard.Arena

open BlockSource (outstanding Reaches Lawful)
open scoped List

/-- The outstanding block lies at the front of the held one. -/
def Fronts (b c : Block) : Prop := b.addr = c.addr ∧ b.size ≤ c.size

structure Sound (limit : Nat) (log : List Event) (s : Arena) : Prop where
  limit_eq : s.limit = limit
  used_le : s.used ≤ s.limit
  within : ∀ b ∈ s.held ++ s.spare, base ≤ b.addr ∧ b.addr + b.size ≤ base + s.used
  apart : (s.held ++ s.spare).Pairwise Block.Apart
  fronts : List.Forall₂ Fronts (outstanding log) s.held

variable {limit : Nat} {log : List Event} {s s' : Arena} {b : Block} {bytes : Nat}

theorem le_need (bytes : Nat) : bytes ≤ need bytes := by
  unfold need
  omega

theorem sound_new (limit : Nat) (failing : List Nat) (reuse : Bool) :
    Sound limit [] (new limit failing reuse) where
  limit_eq := rfl
  used_le := Nat.zero_le _
  within := by simp [new]
  apart := .nil
  fronts := .nil

theorem Sound.of_perm {log' : List Event} (h : Sound limit log s) (hl : s'.limit = s.limit)
    (hu : s'.used = s.used) (hp : s'.held ++ s'.spare <+~ s.held ++ s.spare)
    (hf : List.Forall₂ Fronts (outstanding log') s'.held) : Sound limit log' s' where
  limit_eq := hl.trans h.limit_eq
  used_le := hu ▸ hl ▸ h.used_le
  within b hb := hu ▸ h.within b (hp.subset hb)
  apart := by
    obtain ⟨l, hl, hsub⟩ := hp
    exact (hl.pairwise_iff Block.Apart.symm).mp (h.apart.sublist hsub)
  fronts := hf

theorem take_cases (ht : s.take bytes = some (b, s')) :
    (b ∈ s.spare ∧ b.size = need bytes ∧
      s' = { s with spare := s.spare.erase b, held := b :: s.held }) ∨
    (b = ⟨base + s.used, need bytes⟩ ∧ s.used + need bytes ≤ s.limit ∧
      s' = { s with used := s.used + need bytes, held := b :: s.held }) := by
  simp only [take] at ht
  split at ht
  · cases ht
  · split at ht
    · next c hc =>
      cases ht
      exact .inl ⟨List.mem_of_find?_eq_some hc, by simpa using List.find?_some hc, rfl⟩
    · split at ht
      · next hle =>
        cases ht
        exact .inr ⟨rfl, hle, rfl⟩
      · cases ht

/-- A block taken from the arena is large enough and joins the blocks held before. -/
theorem Sound.take (h : Sound limit log s) (ht : s.take bytes = some (b, s')) (kind : Kind) :
    Sound limit (.alloc bytes kind (some b.addr) :: log) s' ∧ s'.held = b :: s.held ∧
      bytes ≤ b.size := by
  rcases take_cases ht with ⟨hb, hsize, rfl⟩ | ⟨rfl, hle, rfl⟩
  -- a spare block only changes lists, a new one lies beyond all others
  · have hn : bytes ≤ b.size := hsize ▸ le_need bytes
    refine ⟨h.of_perm rfl rfl (List.Perm.subperm ?_) (.cons ⟨rfl, hn⟩ h.fronts), rfl, hn⟩
    calc b :: s.held ++ s.spare.erase b
      _ ~ s.held ++ b :: s.spare.erase b := List.perm_middle.symm
      _ ~ s.held ++ s.spare := (List.perm_cons_erase hb).symm.append_left _
  · have hn := le_need bytes
    refine ⟨⟨h.limit_eq, hle, ?_, ?_, .cons ⟨rfl, hn⟩ h.fronts⟩, rfl, hn⟩
    · intro c hc
      rcases List.mem_cons.mp hc with rfl | hc
      · exact ⟨Nat.le_add_right _ _, (Nat.add_assoc _ _ _).le⟩
      · have := h.within c hc
        dsimp only
        omega
    · constructor
      · intro c hc
        exact .inr (h.within c hc).2
      · exact h.apart

theorem erase_eq_eraseP {bs : List Block} {p : Block → Bool} (h : bs.find? p = some b) :
    bs.erase b = bs.eraseP p := by
  induction bs with
  | nil => rfl
  | cons c bs ih =>
    by_cases hc : p c
    · obtain rfl : c = b := by simpa [hc] using h
      simp [hc]
    · have hne : c ≠ b := by
        rintro rfl
        exact hc (List.find?_some h)
      rw [List.find?_cons_of_neg hc] at h
      simp [hne, hc, ih h]

theorem Fronts.eraseP {bs cs : List Block} (h : List.Forall₂ Fronts bs cs) (a : Nat) :
    List.Forall₂ Fronts (bs.eraseP (·.addr == a)) (cs.eraseP (·.addr == a)) := by
  induction h with
  | nil => exact .nil
  | @cons b c bs cs hbc h ih =>
    by_cases ha : c.addr = a
    · simpa [hbc.1, ha] using h
    · simpa [hbc.1, ha] using ⟨hbc, ih⟩

theorem Sound.release (h : Sound limit log s) (a : Nat) :
    Sound limit (.release a :: log) (s.release a) := by
  have hf := Fronts.eraseP h.fronts a
  simp only [Arena.release]
  split
  · next c hc =>
    refine h.of_perm rfl rfl ?_ (by rwa [outstanding, erase_eq_eraseP hc])
    have hp : s.held.erase c ++ c :: s.spare ~ s.held ++ s.spare :=
      List.perm_middle.trans
        ((List.perm_cons_erase (List.mem_of_find?_eq_some hc)).symm.append_right _)
    split
    · exact hp.subperm
    · exact (((List.sublist_cons_self c s.spare).append_left _).subperm).trans hp.subperm
  · next hc =>
    refine h.of_perm rfl rfl (List.Perm.refl _).subperm ?_
    rwa [List.eraseP_of_forall_not (List.find?_eq_none.mp hc)] at hf

section Contract

variable {failing : List Nat} {reuse : Bool}

theorem Sound.alloc (h : Sound limit log s) (m : Memory) (bytes : Nat) (kind : Kind) :
    (∃ s', s.alloc m bytes kind = (none, s', m) ∧
      Sound limit (.alloc bytes kind none :: log) s') ∨
    ∃ b s', s.alloc m bytes kind = (some b.addr, s', m.fill b.addr b.size 0) ∧
      Sound limit (.alloc bytes kind (some b.addr) :: log) s' ∧ s'.held = b :: s.held ∧
        bytes ≤ b.size := by
  rcases ht : s.take bytes with _ | ⟨b, s'⟩
  · left
    refine ⟨_, by simp only [Arena.alloc, ht]; rfl, ?_⟩
    exact h.of_perm rfl rfl (List.Perm.refl _).subperm h.fronts
  · right
    obtain ⟨hs, hheld, hn⟩ := h.take ht kind
    have hrun : s.alloc m bytes kind = (some b.addr,
        { s' with calls := s'.calls + 1, events := .alloc bytes kind (some b.addr) :: s'.events },
        m.fill b.addr b.size 0) := by
      simp only [Arena.alloc, ht]
    refine ⟨b, _, hrun, ?_, hheld, hn⟩
    exact hs.of_perm rfl rfl (List.Perm.refl _).subperm hs.fronts

theorem sound_of_reaches (h : Reaches (new limit failing reuse) log s) : Sound limit log s := by
  induction h with
  | start => exact sound_new limit failing reuse
  | @alloc log s bytes h hb m kind ih =>
    rcases ih.alloc m bytes kind with ⟨s', ha, hs⟩ | ⟨b, s', ha, hs, -⟩
    · simpa [BlockSource.alloc, ha] using hs
    · simpa [BlockSource.alloc, ha] using hs
  | release h hb m ih => exact ih.release _

theorem Fronts.exists_mem {bs cs : List Block} (h : List.Forall₂ Fronts bs cs) (hb : b ∈ bs) :
    ∃ c ∈ cs, Fronts b c := by
  induction h with
  | nil => cases hb
  | cons hbc _ ih =>
    rcases List.mem_cons.mp hb with rfl | hb
    · exact ⟨_, List.mem_cons_self, hbc⟩
    · obtain ⟨c, hc, h⟩ := ih hb
      exact ⟨c, List.mem_cons_of_mem _ hc, h⟩

theorem Sound.apart_outstanding (h : Sound limit log s) {log' : List Event}
    (h' : Sound limit log' s') (hheld : s'.held = b :: s.held) {c : Block}
    (hc : c ∈ outstanding log) : Block.Apart b c := by
  obtain ⟨d, hd, haddr, hsize⟩ := Fronts.exists_mem h.fronts hc
  have hp := h'.apart
  rw [hheld, List.cons_append, List.pairwise_cons] at hp
  have hbd := hp.1 d (List.mem_append_left _ hd)
  unfold Block.Apart at hbd ⊢
  omega

theorem lawful (hl : base + limit ≤ Memory.top) : Lawful (new limit failing reuse) where
  alloc_some {log s m bytes kind a s' m'} hr hb ha := by
    have h := sound_of_reaches hr
    rcases h.alloc m bytes kind with ⟨s₁, h₁, -⟩ | ⟨b, s₁, h₁, hs, hheld, hn⟩
    · cases h₁.symm.trans ha
    · cases h₁.symm.trans ha
      have hmem : b ∈ s'.held ++ s'.spare := by rw [hheld]; exact List.mem_cons_self
      have hbase : 0 < base := by decide
      have hin := hs.within b hmem
      have hle := hs.used_le
      have hlim := hs.limit_eq
      refine ⟨by omega, by omega, ?_, ?_⟩
      · intro x hx hx'
        rw [Memory.get_fill, if_pos (by omega)]
      · intro c hc
        have hap := h.apart_outstanding hs hheld hc
        simp only [Block.Apart] at hap ⊢
        omega
  alloc_frame {log s bytes} hr hb m kind c hc x hx := by
    have h := sound_of_reaches hr
    simp only [BlockSource.alloc]
    rcases h.alloc m bytes kind with ⟨s₁, h₁, -⟩ | ⟨b, s₁, h₁, hs, hheld, -⟩
    · rw [h₁]
    · have hap := h.apart_outstanding hs hheld hc
      rw [h₁, Memory.get_fill, if_neg]
      simp only [Block.Apart, Block.Covers] at hap hx
      omega
  release_frame _ _ _ _ _ _ _ := rfl

/-- An arena writes to its own addresses only. -/
theorem get_alloc_of_outside (hr : Reaches (new limit failing reuse) log s) (bytes : Nat)
    (m : Memory) (kind : Kind) {x : Nat} (hx : x < base ∨ base + limit ≤ x) :
    (s.alloc m bytes kind).2.2.get x = m.get x := by
  rcases (sound_of_reaches hr).alloc m bytes kind with ⟨s₁, h₁, -⟩ | ⟨b, s₁, h₁, hs, hheld, -⟩
  · rw [h₁]
  · have hmem : b ∈ s₁.held ++ s₁.spare := by rw [hheld]; exact List.mem_cons_self
    have hin := hs.within b hmem
    have hle := hs.used_le
    have hlim := hs.limit_eq
    rw [h₁, Memory.get_fill, if_neg (by omega)]

/-- 4096 bytes whose blocks are reused. -/
def page : Arena := new 4096 [] true

theorem lawful_page : Lawful page := lawful (by decide)

end Contract

end HeapGuard.Arena
