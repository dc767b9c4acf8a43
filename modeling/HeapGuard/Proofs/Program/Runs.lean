import HeapGuard.Program
import HeapGuard.Proofs.Guarded.Contract
import HeapGuard.Proofs.Line
import HeapGuard.Proofs.Report
import HeapGuard.Proofs.StringObject.Operations

/-! # Runs of programs

A program makes calls; between them it writes to memory, wherever it likes, and switches
the diagnostics. Whether or not it treats its blocks well, a run ends with a report or
the accounts of its heap agree with the calls that were made: each call adds and removes
the blocks that it is said to, and nothing is left of the blocks that calls borrow.
-/

namespace HeapGuard.Program

open BlockSource (Lawful)
open Guarded (Accounted)
open Heap (Contract Keeps)
open StringObject (headerSize intBufferSize)
open scoped List

/-! ## What programs do -/

inductive Deed where
  | call (c : Call Nat)
  | write (addr : Nat) (bytes : Bytes)
  | setDiagnostics (enabled : Bool)

namespace Deed

def isAlloc : Deed → Bool
  | .call (.alloc _) => true
  | _ => false

def isNewString : Deed → Bool
  | .call (.newString data) => data != 0
  | _ => false

def isOfInt32 : Deed → Bool
  | .call (.ofInt32 _) => true
  | _ => false

/-- A block is given back; address zero stands for none. -/
def isRelease : Deed → Bool
  | .call (.free p) | .call (.deleteString p) | .call (.deleteArray p) => p != 0
  | _ => false

/-- The blocks that are live after a deed with this reply, the bytes of memory being those after
it. The object of an integer tells where the text of the integer is. -/
def settle (live : List Entry) (memory : Memory) : Deed → Reply → List Entry
  | .call (.alloc bytes), .address a => ⟨a, max bytes 1, .buffer⟩ :: live
  | .call (.newString data), .address a => if data = 0 then live else ⟨a, 16, .object⟩ :: live
  | .call (.ofInt32 _), .address a =>
    ⟨a, 16, .object⟩ :: ⟨(StringObject.load memory a).data, 17, .buffer⟩ :: live
  | .call (.free p), _ | .call (.deleteString p), _ | .call (.deleteArray p), _ =>
    if p = 0 then live else live.filter (·.addr != p)
  | _, _ => live

def adjust (s : Settings) : Deed → Settings
  | .call (.setScratchSize bytes) => { s with scratchSize := Settings.clampScratch bytes }
  | .setDiagnostics enabled => { s with diagnostics := enabled }
  | _ => s

variable {N : Nat} {S : Type} [BlockSource S]

def perform : Deed → Action (Guarded N S) Reply
  | .call c => c.run
  | .write a bs => do
    Action.modifyMemory (·.write a bs)
    return .done
  | .setDiagnostics enabled => do
    modify fun m => { m with settings := { m.settings with diagnostics := enabled } }
    return .done

end Deed

variable {N : Nat} {S : Type} [BlockSource S]

/-- Do one thing after the other. The answer is the list of the blocks that are live afterwards,
by what was called and answered. -/
def play (live : List Entry) : List Deed → Action (Guarded N S) (List Entry)
  | [] => return live
  | d :: ds => do
    let reply ← d.perform
    play (d.settle live (← Action.memory) reply) ds

/-! ## Calls -/

section Calls

variable {H α : Type} {m m₁ m₂ : Machine H}

@[simp] theorem run_orDie_ok (a : α) (m : Machine H) : (orDie (.ok a)).run m = .ok a m := rfl

theorem exists_run_orDie_error (f : Failure) (m : Machine H) :
    ∃ m', (orDie (.error f) : Action H α).run m = .error .abort m' := by
  cases f <;> exact ⟨_, Action.run_die _ m⟩

/-- The bytes that printing an object starts from. -/
def shown (memory : Memory) (obj : Nat) : Bytes :=
  if obj = 0 then [] else (StringObject.load memory obj).bytes memory

def told : Except Failure Nat → Nat
  | .ok written => min written maxCount
  | .error f => min f.written maxCount

def noted (s : Settings) (err : Stream) : Except Failure Nat → Stream
  | .ok _ => err
  | .error f => if s.diagnostics then err.writeAll (Report.warning f) else err

variable [Heap H] {obj : Nat}

theorem print_of_allocation {bytes : Nat}
    (h : (Line.print (shown m.memory obj) m.settings.scratchSize).run m =
      .ok (.error (.allocation bytes)) m₁) :
    (print obj).run m = (Action.die (.outOfMemory bytes) : Action H Nat).run m₁ := by
  simp only [shown] at h
  simp [print, h]

theorem print_of_result {r : Except Failure Nat} (hr : ∀ bytes, r ≠ .error (.allocation bytes))
    (h : (Line.print (shown m.memory obj) m.settings.scratchSize).run m = .ok r m₁) :
    (print obj).run m = .ok (told r) { m₁ with err := noted m₁.settings m₁.err r } := by
  simp only [shown] at h
  rcases r with (bytes | status | ⟨written, wanted⟩) | n
  · exact absurd rfl (hr bytes)
  all_goals
    simp [print, h, told, noted]

theorem alloc_of_ok {bytes a : Nat} (h : (Heap.alloc bytes .buffer).run m = .ok (.ok a) m₁) :
    (alloc bytes).run m = .ok a m₁ := by
  simp [alloc, h]

theorem alloc_of_error {bytes : Nat}
    (h : (Heap.alloc bytes .buffer).run m = .ok (.error (.allocation bytes)) m₁) :
    (alloc bytes).run m = (Action.die (.outOfMemory bytes) : Action H Nat).run m₁ := by
  simp [alloc, h, orDie]

theorem newString_zero : (newString 0).run m = .ok 0 m := rfl

theorem newString_of_error {data : Nat} (hdata : data ≠ 0) {bytes : Nat}
    (h : (Heap.alloc headerSize .object).run m = .ok (.error (.allocation bytes)) m₁) :
    (newString data).run m = (Action.die (.outOfMemory bytes) : Action H Nat).run m₁ := by
  simp [newString, hdata, StringObject.ofText_of_error h, orDie]

theorem newString_of_ok {data : Nat} (hdata : data ≠ 0)
    (h : (Heap.alloc headerSize .object).run m = .ok (.ok obj) m₁) :
    (newString data).run m = .ok obj
      { m₁ with
        memory := StringObject.store ⟨m.memory.textLength data, data⟩ m₁.memory obj } := by
  simp [newString, hdata, StringObject.ofText_of_ok h]

section OfInt32

variable {value : Int32} {data : Nat}

theorem ofInt32_of_ok (ht : (StringObject.intText value).run m = .ok (.ok data) m₁)
    (ho : (StringObject.ofText data).run m₁ = .ok (.ok obj) m₂) :
    (ofInt32 value).run m = .ok obj m₂ := by
  simp [ofInt32, StringObject.ofInt32, ht, ho]

theorem ofInt32_of_error {f : Failure}
    (ht : (StringObject.intText value).run m = .ok (.error f) m₁) :
    (ofInt32 value).run m = (orDie (.error f) : Action H Nat).run m₁ := by
  simp [ofInt32, StringObject.ofInt32, ht]

/-- The block of the text is given back before the run ends. -/
theorem ofInt32_of_refusal {f : Failure}
    (ht : (StringObject.intText value).run m = .ok (.ok data) m₁)
    (ho : (StringObject.ofText data).run m₁ = .ok (.error f) m₂) :
    (ofInt32 value).run m = (do Heap.release data; orDie (.error f) : Action H Nat).run m₂ := by
  simp [ofInt32, StringObject.ofInt32, ht, ho]

end OfInt32

theorem toInt32_of_result {r : Except Failure Int32}
    (h : (StringObject.load m.memory obj).toInt32.run m = .ok r m₁) :
    (toInt32 obj).run m = (orDie r : Action H Int32).run m₁ := by
  simp [toInt32, h]

/-- Without a scratch block the run ends; with one a line is written and the program told of it. -/
theorem print_cases {Holds : List Block → Machine H → Prop} (hH : Contract Holds)
    {live : List Block} (hm : Holds live m) (obj : Nat) :
    let text := shown m.memory obj
    let size := m.settings.scratchSize
    let result := Line.verdict text size (m.out.write (Line.sent text size)).1
    (∃ m', (Heap.alloc size .scratch).run m = .ok (.error (.allocation size)) m' ∧
      (print obj).run m = (Action.die (.outOfMemory size) : Action H Nat).run m' ∧
      Keeps live m m') ∨
    ∃ a m₁ m', (Heap.alloc size .scratch).run m = .ok (.ok a) m₁ ∧
      (print obj).run m = .ok (told result) { m' with err := noted m.settings m.err result } ∧
      Holds live m' ∧ Keeps live { m with out := (m.out.write (Line.sent text size)).2 } m' := by
  intro text size result
  rcases Line.print_cases hH hm text size with
    ⟨m', ha, hrun, -, hk⟩ | ⟨a, m₁, m', ha, hrun, hm', hk⟩
  · left
    exact ⟨m', ha, print_of_allocation hrun, hk⟩
  · right
    have hresult : ∀ bytes, result ≠ .error (.allocation bytes) := Line.verdict_ne_allocation
    have hprint := print_of_result hresult hrun
    have hnoted : noted m'.settings m'.err result = noted m.settings m.err result := by
      rw [hk.settings_eq, hk.err_eq]
    rw [hnoted] at hprint
    exact ⟨a, m₁, m', ha, hprint, hm', hk⟩

end Calls

/-! ## One deed -/

/-- From the one machine to the other the live blocks and the settings have changed as the deeds
say. -/
structure Advance (s₀ : S) (ds : List Deed) (live live' : List Entry)
    (m m' : Machine (Guarded N S)) : Prop where
  accounted : ∃ log, Accounted s₀ log live' m'
  length_eq : live'.length + ds.countP Deed.isRelease =
    live.length + ds.countP Deed.isAlloc + ds.countP Deed.isNewString +
      2 * ds.countP Deed.isOfInt32
  settings_eq : m'.settings = ds.foldl Deed.adjust m.settings

variable {s₀ : S} {log : List Arena.Event} {live live' live'' : List Entry}
  {m m' m'' : Machine (Guarded N S)} {d : Deed} {ds ds' : List Deed}

theorem Advance.append (h : Advance s₀ ds live live' m m')
    (h' : Advance s₀ ds' live' live'' m' m'') :
    Advance s₀ (ds ++ ds') live live'' m m'' where
  accounted := h'.accounted
  length_eq := by
    have := h.length_eq
    have := h'.length_eq
    simp only [List.countP_append]
    omega
  settings_eq := by rw [List.foldl_append, ← h.settings_eq, h'.settings_eq]

/-- The deed ends the run with a report, or it does what it is said to do. -/
def Goes (s₀ : S) (live : List Entry) (m : Machine (Guarded N S)) (d : Deed) : Prop :=
  (∃ m', d.perform.run m = .error .abort m') ∨
    ∃ reply m', d.perform.run m = .ok reply m' ∧
      Advance s₀ [d] live (d.settle live m'.memory reply) m m'

section Goes

variable {α : Type} {x : Action (Guarded N S) α} {f : α → Reply}

theorem Goes.of_abort (hd : d.perform = do return f (← x))
    (h : ∃ m', x.run m = .error .abort m') : Goes s₀ live m d := by
  obtain ⟨m', h⟩ := h
  left
  rw [hd]
  exact ⟨m', by simp [h]⟩

theorem Goes.of_ok (hd : d.perform = do return f (← x)) {a : α} (h : x.run m = .ok a m')
    (hadv : Advance s₀ [d] live (d.settle live m'.memory (f a)) m m') : Goes s₀ live m d := by
  right
  rw [hd]
  exact ⟨f a, m', by simp [h], hadv⟩

end Goes

theorem goes_reportLeaks (h : Accounted s₀ log live m) :
    Goes s₀ live m (.call .reportLeaks) := by
  obtain ⟨err, hrun⟩ := Guarded.exists_run_reportLeaks m
  exact .of_ok rfl hrun ⟨⟨log, h.of_heap_eq rfl⟩, rfl, rfl⟩

section Deeds

variable (hN : 0 < N) (hs : Lawful s₀) (h : Accounted s₀ log live m)
include hN hs h

theorem goes_alloc (bytes : Nat) : Goes s₀ live m (.call (.alloc bytes)) := by
  rcases h.alloc_cases hN hs bytes .buffer with ⟨_, _, hrun, -⟩ | ⟨a, m', _, hrun, hacc, hk⟩
  · exact .of_abort rfl ⟨_, alloc_of_error hrun⟩
  · exact .of_ok rfl (alloc_of_ok hrun) ⟨⟨_, hacc⟩, rfl, hk.settings_eq⟩

theorem goes_newString (data : Nat) : Goes s₀ live m (.call (.newString data)) := by
  by_cases hdata : data = 0
  · subst hdata
    exact .of_ok rfl newString_zero ⟨⟨_, h⟩, rfl, rfl⟩
  rcases h.alloc_cases hN hs headerSize .object with
    ⟨_, _, hrun, -⟩ | ⟨a, m', _, hrun, hacc, hk⟩
  · exact .of_abort rfl ⟨_, newString_of_error hdata hrun⟩
  · refine .of_ok rfl (newString_of_ok hdata hrun) ?_
    rw [Deed.settle, if_neg hdata]
    refine ⟨⟨_, hacc.of_heap_eq rfl⟩, ?_, hk.settings_eq⟩
    simp [Deed.isRelease, Deed.isAlloc, Deed.isNewString, Deed.isOfInt32, hdata]

omit hN in
theorem load_live_object {obj data : Nat} {kind : Kind} {memory : Memory}
    (hobj : ⟨obj, headerSize, kind⟩ ∈ live) (h₀ : 0 < data) (hdata : data < Memory.top) :
    (StringObject.load
      (StringObject.store ⟨memory.textLength data, data⟩ m.memory obj) obj).data = data := by
  have hfit := (h.bounds hs hobj).2
  dsimp only at hfit
  rw [StringObject.load_store (by omega) (Memory.textLength_lt h₀ (Nat.le_of_lt hdata)) hdata]

theorem goes_ofInt32 (value : Int32) : Goes s₀ live m (.call (.ofInt32 value)) := by
  rcases h.alloc_cases hN hs intBufferSize .buffer with
    ⟨_, _, hbuf, -⟩ | ⟨buf, mₐ, log₁, hbuf, hacc₁, hk₁⟩
  · apply Goes.of_abort rfl
    rw [ofInt32_of_error (StringObject.intText_of_error hbuf)]
    exact exists_run_orDie_error _ _
  obtain ⟨m₁, htext, hacc₁, hset₁⟩ : ∃ m₁, (StringObject.intText value).run m = .ok (.ok buf) m₁ ∧
      Accounted s₀ log₁ (⟨buf, 17, .buffer⟩ :: live) m₁ ∧ m₁.settings = m.settings :=
    ⟨_, StringObject.intText_of_ok hbuf, hacc₁.of_heap_eq rfl, hk₁.settings_eq⟩
  have hbounds := hacc₁.bounds hs List.mem_cons_self
  dsimp only at hbounds
  rcases hacc₁.alloc_cases hN hs headerSize .object with
    ⟨m₂, _, hobj, hacc₂, -⟩ | ⟨obj, m₂, log₂, hobj, hacc₂, hk₂⟩
  · -- the run ends, whether or not the block of the text can be given back
    apply Goes.of_abort rfl
    rw [ofInt32_of_refusal htext (StringObject.ofText_of_error hobj), EStateM.run_bind]
    rcases hacc₂.release_cases hN hs (Nat.ne_zero_of_lt hbounds.1) with
      ⟨_, hrel⟩ | ⟨_, -, -, _, _, hrel, -⟩
    · rw [hrel, Action.run_die]
      exact ⟨_, rfl⟩
    · rw [hrel]
      exact exists_run_orDie_error _ _
  · apply Goes.of_ok rfl (ofInt32_of_ok htext (StringObject.ofText_of_ok hobj))
    have h₀ : 0 < buf := Nat.zero_lt_of_lt hbounds.1
    rw [Deed.settle, load_live_object hs hacc₂ List.mem_cons_self h₀ (by omega)]
    exact ⟨⟨_, hacc₂.of_heap_eq rfl⟩, rfl, hk₂.settings_eq.trans hset₁⟩

theorem goes_release {p : Nat}
    (hd : d = .call (.free p) ∨ d = .call (.deleteString p) ∨ d = .call (.deleteArray p)) :
    Goes s₀ live m d := by
  by_cases hp : p = 0
  · right
    subst hp
    rcases hd with rfl | rfl | rfl
    all_goals
      exact ⟨_, m, rfl, ⟨_, h⟩, rfl, rfl⟩
  obtain ⟨reply, hperform⟩ : ∃ reply,
      d.perform = (do Heap.release p; return reply : Action (Guarded N S) Reply) := by
    rcases hd with rfl | rfl | rfl
    · exact ⟨.done, by simp [Deed.perform, Call.run, free, hp]⟩
    · exact ⟨.flag true, by simp [Deed.perform, Call.run, delete, hp]⟩
    · exact ⟨.flag true, by simp [Deed.perform, Call.run, delete, hp]⟩
  rcases h.release_cases hN hs hp with ⟨_, hrun⟩ | ⟨e, he, rfl, m', _, hrun, hacc, hk⟩
  · exact .of_abort hperform ⟨_, hrun.trans (Action.run_die _ m)⟩
  · refine .of_ok hperform hrun ?_
    have hlen := h.length_filter_addr hs he
    rcases hd with rfl | rfl | rfl
    all_goals
      rw [Deed.settle, if_neg hp]
      refine ⟨⟨_, hacc⟩, ?_, hk.settings_eq⟩
      simp [Deed.isRelease, Deed.isAlloc, Deed.isNewString, Deed.isOfInt32, hp]
      omega

theorem goes_print (obj : Nat) : Goes s₀ live m (.call (.print obj)) := by
  rcases print_cases (Guarded.contract hN hs live m.memory) h.holds obj with
    ⟨m', -, hrun, -⟩ | ⟨_, _, m', -, hrun, hm', hk⟩
  · exact .of_abort rfl ⟨_, hrun⟩
  · obtain ⟨log', hacc, -⟩ := hm'.accounted
    exact .of_ok rfl hrun ⟨⟨log', hacc.of_heap_eq rfl⟩, rfl, hk.settings_eq⟩

theorem goes_toInt32 (obj : Nat) : Goes s₀ live m (.call (.toInt32 obj)) := by
  let object := StringObject.load m.memory obj
  rcases (Guarded.contract hN hs live m.memory).withScratch_cases h.holds (object.size + 1)
    object.contained_parse with
    ⟨m', -, hrun, -⟩ | ⟨_, _, value, _, _, m', -, -, -, -, -, hrun, hm', hk⟩
  · apply Goes.of_abort rfl
    rw [toInt32_of_result hrun]
    exact exists_run_orDie_error _ _
  · obtain ⟨log', hacc, -⟩ := hm'.accounted
    exact .of_ok rfl (toInt32_of_result hrun) ⟨⟨log', hacc⟩, rfl, hk.settings_eq⟩

theorem goes (d : Deed) : Goes s₀ live m d := by
  cases d with
  | call c =>
    cases c with
    | alloc bytes => exact goes_alloc hN hs h bytes
    | free p => exact goes_release hN hs h (.inl rfl)
    | print obj => exact goes_print hN hs h obj
    | newString data => exact goes_newString hN hs h data
    | ofInt32 value => exact goes_ofInt32 hN hs h value
    | toInt32 obj => exact goes_toInt32 hN hs h obj
    | deleteString obj => exact goes_release hN hs h (.inr (.inl rfl))
    | deleteArray p => exact goes_release hN hs h (.inr (.inr rfl))
    | reportLeaks => exact goes_reportLeaks h
    | sleep | textLength | stringLength | setScratchSize | scratchSize =>
      exact .inr ⟨_, _, rfl, ⟨_, h.of_heap_eq rfl⟩, rfl, rfl⟩
  | write | setDiagnostics => exact .inr ⟨_, _, rfl, ⟨_, h.of_heap_eq rfl⟩, rfl, rfl⟩

end Deeds

/-! ## Whole runs -/

theorem play_append (live : List Entry) (ds ds' : List Deed) :
    (play live (ds ++ ds') : Action (Guarded N S) (List Entry)) =
      play live ds >>= fun live' => play live' ds' := by
  induction ds generalizing live with
  | nil => simp [play]
  | cons d ds ih => simp [play, ih]

section Play

variable (hN : 0 < N) (hs : Lawful s₀)
include hN hs

/-- A run ends with a report, or it does what its deeds are said to do. -/
theorem play_cases (h : Accounted s₀ log live m) (ds : List Deed) :
    (∃ m', (play live ds).run m = .error .abort m') ∨
    ∃ live' m', (play live ds).run m = .ok live' m' ∧ Advance s₀ ds live live' m m' := by
  induction ds generalizing live log m with
  | nil =>
    right
    exact ⟨live, m, rfl, ⟨log, h⟩, rfl, rfl⟩
  | cons d ds ih =>
    rcases goes hN hs h d with ⟨m', hrun⟩ | ⟨reply, m₁, hrun, hadv⟩
    · left
      exact ⟨m', by simp [play, hrun]⟩
    · obtain ⟨log₁, hacc⟩ := hadv.accounted
      rcases ih hacc with ⟨m', hrest⟩ | ⟨live', m', hrest, hadv'⟩
      · left
        exact ⟨m', by simp [play, hrun, hrest]⟩
      · right
        exact ⟨live', m', by simp [play, hrun, hrest], hadv.append hadv'⟩

end Play

/-! ## Reachable states -/

/-- The machines that programs and the requests behind their calls lead to, whatever happens to
memory, the streams and the settings in between. -/
inductive Reachable (s₀ : S) : Machine (Guarded N S) → Prop
  | start {m : Machine (Guarded N S)} (h : m.heap = .new N s₀) : Reachable s₀ m
  | deed {m m' : Machine (Guarded N S)} {d : Deed} {reply : Reply} (hm : Reachable s₀ m)
      (h : d.perform.run m = .ok reply m') : Reachable s₀ m'
  | request {m : Machine (Guarded N S)} (hm : Reachable s₀ m) (r : Request) :
      Reachable s₀ (Guarded.exec m r).2
  | other {m m' : Machine (Guarded N S)} (hm : Reachable s₀ m) (h : m'.heap = m.heap) :
      Reachable s₀ m'

theorem Reachable.play {m₀ : Machine (Guarded N S)} (h₀ : m₀.heap = .new N s₀)
    (rs : List Request) : Reachable s₀ (Guarded.play m₀ rs).2 := by
  induction rs with
  | nil => exact .start h₀
  | cons r rs ih => exact .request ih r

theorem Reachable.accounted (hN : 0 < N) (hs : Lawful s₀) (hm : Reachable s₀ m) :
    ∃ log, Accounted s₀ log m.heap.ledger.entries m := by
  suffices h : ∃ log live, Accounted s₀ log live m by
    obtain ⟨log, live, h⟩ := h
    exact ⟨log, h.perm h.entries_perm.symm⟩
  induction hm with
  | start h => exact ⟨[], [], .new h⟩
  | @deed _ _ d _ _ hrun ih =>
    obtain ⟨log, live, h⟩ := ih
    rcases goes hN hs h d with ⟨_, habort⟩ | ⟨_, _, hok, hadv⟩
    · cases habort.symm.trans hrun
    · cases hok.symm.trans hrun
      obtain ⟨log', h'⟩ := hadv.accounted
      exact ⟨log', _, h'⟩
  | request _ r ih =>
    obtain ⟨log, live, h⟩ := ih
    obtain ⟨log', h'⟩ := (h.exec_step hN hs r).1
    exact ⟨log', _, h'⟩
  | other _ heq ih =>
    obtain ⟨log, live, h⟩ := ih
    exact ⟨log, live, h.of_heap_eq heq⟩

end HeapGuard.Program
