import HeapGuard.Proofs.Program.Objects
import HeapGuard.Proofs.StringObject.Integers

/-! # Objects for integers, all or nothing

An object for an integer takes two blocks, one for the text and one for the object. In
every state that a heap can be in, both are had or neither is kept: if there is none for
the object, the block of the text is given back, and its release is not refused.
-/

namespace HeapGuard.Program

open BlockSource (Lawful)
open Guarded (Accounted Holds Undisturbed Grants)
open Numeral (signed IsSigned)
open RedZone (width)
open StringObject (intBufferSize intText load)
open scoped List

variable {N : Nat} {S : Type} [BlockSource S] {s₀ : S} {log : List Arena.Event}
  {live : List Entry} {m : Machine (Guarded N S)}

/-- Two blocks are live that were not, with the text of the integer and the object for it. -/
structure Made (v : Int32) (m : Machine (Guarded N S)) (obj buf : Nat)
    (m' : Machine (Guarded N S)) : Prop where
  entries_perm : m'.heap.ledger.entries ~
    ⟨obj, 16, .object⟩ :: ⟨buf, 17, .buffer⟩ :: m.heap.ledger.entries
  live_eq : m'.heap.ledger.live = m.heap.ledger.live + 2
  liveBytes_eq : m'.heap.ledger.liveBytes = m.heap.ledger.liveBytes + 33
  load_eq : load m'.memory obj = ⟨(signed v.toInt).length, buf⟩
  read_eq : m'.memory.read buf 17 =
    signed v.toInt ++ List.replicate (17 - (signed v.toInt).length) 0
  undisturbed : Undisturbed m.heap.ledger.entries m.memory m'.memory

theorem made {log' : List Arena.Event} {obj buf : Nat} {v : Int32} {m' : Machine (Guarded N S)}
    (h : Accounted s₀ log m.heap.ledger.entries m)
    (h' : Accounted s₀ log'
      (⟨obj, 16, .object⟩ :: ⟨buf, 17, .buffer⟩ :: m.heap.ledger.entries) m')
    (hload : load m'.memory obj = ⟨(signed v.toInt).length, buf⟩)
    (htext : m'.memory.HoldsText buf 17 (signed v.toInt))
    (hu : Undisturbed m.heap.ledger.entries m.memory m'.memory) : Made v m obj buf m' where
  entries_perm := h'.entries_perm
  live_eq := by
    rw [h'.live_eq, h.live_eq]
    rfl
  liveBytes_eq := by
    rw [h'.liveBytes_eq, h.liveBytes_eq]
    simp only [List.map_cons, List.sum_cons]
    omega
  load_eq := hload
  read_eq := htext
  undisturbed := hu

theorem intText_cases (hN : 0 < N) (hs : Lawful s₀) (h : Accounted s₀ log live m) (v : Int32) :
    (∃ m₁, (intText v).run m = .ok (.error (.allocation 17)) m₁ ∧
      Holds s₀ live m.memory [] m₁ ∧ m₁.settings = m.settings ∧
      (Grants m 17 .buffer → N ≤ live.length)) ∨
    ∃ buf m₁ log₁, (intText v).run m = .ok (.ok buf) m₁ ∧
      Accounted s₀ log₁ (⟨buf, 17, .buffer⟩ :: live) m₁ ∧
      Holds s₀ live m.memory [⟨buf, 17⟩] m₁ ∧ m₁.settings = m.settings ∧
      m₁.memory.HoldsText buf 17 (signed v.toInt) ∧ live.length < N := by
  have hH := Guarded.contract hN hs live m.memory
  have hfits : max intBufferSize 1 + 2 * width < Memory.top := by decide
  rcases h.alloc_held hN hs h.holds hfits .buffer with
    ⟨m₁, hrun, hm₁, hk, hfull⟩ | ⟨buf, mₐ, log₁, hrun, h₁, -, hk, hroom⟩
  · left
    exact ⟨m₁, StringObject.intText_of_error hrun, hm₁, hk.settings_eq, hfull⟩
  · right
    obtain ⟨m₁, htext, hm₁, hholds, -⟩ :=
      StringObject.intText_holdsText (v := v) hH h.holds hrun
    obtain ⟨-, rfl⟩ := EStateM.Result.ok.inj (htext.symm.trans (StringObject.intText_of_ok hrun))
    exact ⟨buf, _, _, htext, h₁.of_heap_eq rfl, hm₁, hk.settings_eq, hholds, hroom⟩

/-- In every state of a heap, an object for an integer is made with its two blocks, or nothing has
changed. If the source grants both blocks, then only the number of live blocks decides. -/
theorem ofInt32_allOrNothing (hN : 0 < N) (hs : Lawful s₀) (hm : Reachable s₀ m) (v : Int32) :
    IsSigned v.toInt (signed v.toInt) ∧
    ∃ result m', (StringObject.ofInt32 v).run m = .ok result m' ∧
      ((∃ obj buf, result = .ok obj ∧ Made v m obj buf m') ∨
        (result = .error (.allocation 17) ∨ result = .error (.allocation 16)) ∧
          m'.heap.ledger.entries ~ m.heap.ledger.entries ∧
          Unmoved m.heap.ledger.entries m m') ∧
      (Grants m 17 .buffer →
        (∀ buf m₁, (intText v).run m = .ok (.ok buf) m₁ → Grants m₁ 16 .object) →
        (result = .error (.allocation 17) ↔ m.heap.ledger.live = N) ∧
        (result = .error (.allocation 16) ↔ m.heap.ledger.live + 1 = N)) := by
  constructor
  · exact Numeral.isSigned_signed _
  obtain ⟨log, h⟩ := hm.accounted hN hs
  have hH := Guarded.contract hN hs m.heap.ledger.entries m.memory
  have hlive := h.live_eq
  have hle := m.heap.ledger.length_entries_le
  rcases intText_cases hN hs h v with
    ⟨m', htext, hm', hset, hfull⟩ | ⟨buf, m₁, log₁, htext, h₁, hm₁, hset₁, hholds, hroom⟩
  · obtain ⟨_, h', -⟩ := hm'.accounted
    refine ⟨.error (.allocation 17), m', by simp [StringObject.ofInt32, htext],
      .inr ⟨.inl rfl, h'.entries_perm, unmoved hN hs h hm' hset⟩, ?_⟩
    intro hg _
    have hlength := hfull hg
    constructor
    · exact iff_of_true rfl (by omega)
    · exact iff_of_false (by simp) (by omega)
  have hlen : (signed v.toInt).length < 17 :=
    Nat.lt_of_le_of_lt (StringObject.length_signed_int32 v) (by decide)
  have hbounds := h₁.bounds hs List.mem_cons_self
  dsimp only at hbounds
  have h₀ : 0 < buf := by omega
  have hbuf : buf < Memory.top := by omega
  rcases ofText_cases hN hs h₁ hm₁ h₀ hbuf with
    ⟨m₂, hobj, hm₂, hk₂, hfull⟩ | ⟨obj, m₂, log₂, hobj, h₂, hm₂, hk₂, hload, hroom₂⟩
  · -- the block of the text is held, so it can be given back
    obtain ⟨m₃, hrelease, hm₃, hk₃⟩ := hH.release hm₂
    obtain ⟨_, h₃, -⟩ := hm₃.accounted
    have hset : m₃.settings = m.settings := by rw [hk₃.settings_eq, hk₂.settings_eq, hset₁]
    refine ⟨.error (.allocation 16), m₃, by simp [StringObject.ofInt32, htext, hobj, hrelease],
      .inr ⟨.inr rfl, h₃.entries_perm, unmoved hN hs h hm₃ hset⟩, ?_⟩
    intro _ hg
    have hlength : N ≤ m.heap.ledger.entries.length + 1 := hfull (hg buf m₁ htext)
    constructor
    · exact iff_of_false (by simp) (by omega)
    · exact iff_of_true rfl (by omega)
  · have hlength : m.heap.ledger.entries.length + 1 < N := hroom₂
    refine ⟨.ok obj, m₂, by simp [StringObject.ofInt32, htext, hobj], .inl ⟨obj, buf, rfl, ?_⟩, ?_⟩
    · have hwhole := hholds.text_eq hlen (Numeral.zero_notMem_signed _)
      rw [← Memory.length_text, hwhole] at hload
      have htext₂ := hholds.congr (hk₂.get_eq _ List.mem_cons_self)
      exact made h h₂ hload htext₂ hm₂.undisturbed
    · intro _ _
      constructor
      · exact iff_of_false (by simp) (by omega)
      · exact iff_of_false (by simp) (by omega)

/-- One slot is free and both blocks are granted: the block of the text is given back. -/
theorem ofInt32_allOrNothing_last_slot :
    let m := (Guarded.play (Guarded.onPage 2) [.write (Arena.base + 16) [1, 2, 3], .alloc 4 .buffer]).2
    Reachable .page m ∧ m.heap.ledger.live + 1 = 2 ∧
      ∃ m', (StringObject.ofInt32 Int32.minValue).run m = .ok (.error (.allocation 16)) m' ∧
        m'.heap.ledger.entries ~ m.heap.ledger.entries ∧
        Unmoved m.heap.ledger.entries m m' := by
  intro m
  have hm : Reachable .page m := .play rfl _
  have hlive : m.heap.ledger.live + 1 = 2 := by decide
  have htest : (intText Int32.minValue).ensures m (fun _ m₁ =>
      (BlockSource.alloc m₁.heap.source m₁.memory 48 .object).1.isSome) = true := by
    decide +kernel
  have hgrant : ∀ buf m₁, (intText Int32.minValue).run m = .ok (.ok buf) m₁ →
      Grants m₁ 16 .object := fun _ _ => Action.test_of_ensures htest
  obtain ⟨-, result, m', hrun, hends, hfails⟩ :=
    ofInt32_allOrNothing (by decide) Arena.lawful_page hm Int32.minValue
  obtain rfl := (hfails rfl hgrant).2.mpr hlive
  rcases hends with ⟨_, _, hok, -⟩ | ⟨-, hperm, hmoved⟩
  · cases hok
  · exact ⟨hm, hlive, m', hrun, hperm, hmoved⟩

end HeapGuard.Program
