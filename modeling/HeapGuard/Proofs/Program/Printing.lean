import HeapGuard.Proofs.Guarded.Scratch
import HeapGuard.Proofs.Program.Runs

/-! # What printing shows

In every state that a program can reach, printing an object ends the run for want of a
scratch block or writes one line. The line on the output stream, the number that the
program is told and the warning on the error stream agree, whatever the size of the
scratch block. Nothing of the heap has changed afterwards.
-/

namespace HeapGuard

open BlockSource (Lawful)
open Guarded (Accounted Holds Undisturbed)
open Numeral (decimal signed)

namespace Program

variable {N : Nat} {S : Type}

/-! ## The size of scratch blocks -/

/-- Room for a line break and the zero byte behind it, and a machine word. -/
def Usable (size : Nat) : Prop := 2 ≤ size ∧ size < 2 ^ 64

theorem usable_adjust {s : Settings} (h : Usable s.scratchSize) {d : Deed}
    (hd : ∀ bytes, d = .call (.setScratchSize bytes) → bytes < 2 ^ 64) :
    Usable (d.adjust s).scratchSize := by
  unfold Deed.adjust
  split
  · have hbytes := hd _ rfl
    simp only [Usable, Settings.clampScratch]
    omega
  · exact h
  · exact h

theorem usable_foldl_adjust {s : Settings} (h : Usable s.scratchSize) {ds : List Deed}
    (hds : ∀ bytes, .call (.setScratchSize bytes) ∈ ds → bytes < 2 ^ 64) :
    Usable (ds.foldl Deed.adjust s).scratchSize := by
  induction ds generalizing s with
  | nil => exact h
  | cons d ds ih =>
    apply ih
    · apply usable_adjust h
      rintro bytes rfl
      exact hds bytes List.mem_cons_self
    · intro bytes hb
      exact hds bytes (List.mem_cons_of_mem _ hb)

/-! ## Lines -/

/-- How a text shows on the streams and to the program if the scratch block has `size` bytes and
the first `k` bytes of the line are written. -/
structure Printed (text : Bytes) (size k : Nat) (m m' : Machine (Guarded N S)) (answer : Nat) :
    Prop where
  once : m'.out = (m.out.write ((text ++ [10]).take k)).2
  taken : (m.out.write ((text ++ [10]).take k)).1 = k →
    m'.out.received = m.out.received ++ (text ++ [10]).take k ∧ answer = k ∧
    (text.length + 2 ≤ size ∨ m.settings.diagnostics = false → m'.err = m.err) ∧
    (size < text.length + 2 → m.settings.diagnostics = true →
      m.err.Hears m'.err
        [Report.warningHeader, .ofText "print output truncated, wrote ", decimal (size - 1),
          .ofText " of ", decimal (text.length + 1), .ofText " bytes\n"])
  failed : ∀ e, (m.out.write ((text ++ [10]).take k)).1 = e → e < 0 → -2 ^ 63 ≤ e →
    m'.out.received = m.out.received ∧ answer = 0 ∧
    (m.settings.diagnostics = false → m'.err = m.err) ∧
    (m.settings.diagnostics = true →
      m.err.Hears m'.err
        [Report.warningHeader, .ofText "console write failed, status ", signed e, .ofText "\n"])

section Printed

variable {bytes : Bytes} {size : Nat}

theorem verdict_neg {e : Int} (he : e < 0) :
    Line.verdict bytes size e = .error (.write e) := if_pos he

theorem verdict_whole (h : bytes.untilNul.length + 2 ≤ size) :
    Line.verdict bytes size (Line.fits bytes size) = .ok (Line.fits bytes size) := by
  have hfits : ¬ Line.fits bytes size < Line.wanted bytes := by
    unfold Line.fits Line.wanted
    omega
  rw [Line.verdict, if_neg (by omega), if_neg hfits, Int.toNat_natCast]

theorem verdict_cut (h₂ : 2 ≤ size) (h : size < bytes.untilNul.length + 2) :
    Line.verdict bytes size (Line.fits bytes size) =
      .error (.truncated (size - 1) (bytes.untilNul.length + 1)) := by
  have hfits : Line.fits bytes size = size - 1 := by
    unfold Line.fits Line.wanted
    omega
  have hlt : size - 1 < Line.wanted bytes := by
    unfold Line.wanted
    omega
  rw [hfits, Line.verdict, if_neg (by omega), hfits, if_pos hlt, Int.toNat_natCast]
  rfl

theorem told_fits (hn : bytes.untilNul.length ≤ Line.maxText) :
    told (Line.verdict bytes size (Line.fits bytes size)) = Line.fits bytes size := by
  have hle : Line.fits bytes size ≤ maxCount := by
    simp only [Line.fits, Line.wanted, Line.maxText, maxCount] at hn ⊢
    omega
  rw [Line.verdict, if_neg (by omega), Int.toNat_natCast]
  split <;> exact Nat.min_eq_left hle

theorem noted_of_off {s : Settings} (hs : s.diagnostics = false) (err : Stream)
    (r : Except Failure Nat) : noted s err r = err := by
  cases r <;> simp [noted, hs]

theorem hears_noted {s : Settings} (hs : s.diagnostics = true) (err : Stream) (f : Failure) :
    err.Hears (noted s err (.error f)) (Report.warning f) := by
  rw [noted, if_pos hs]
  exact err.hears_writeAll _

theorem printed {m m' : Machine (Guarded N S)} (hsize : Usable size)
    (hn : bytes.untilNul.length ≤ Line.maxText)
    (hout : m'.out = (m.out.write (Line.sent bytes size)).2)
    (herr : m'.err = noted m.settings m.err
      (Line.verdict bytes size (m.out.write (Line.sent bytes size)).1)) :
    Printed bytes.untilNul size (min (bytes.untilNul.length + 1) (size - 1)) m m'
      (told (Line.verdict bytes size (m.out.write (Line.sent bytes size)).1)) := by
  change Printed _ _ (Line.fits bytes size) _ _ _
  rw [Line.sent_eq_take hn] at hout herr ⊢
  obtain ⟨h₂, hword⟩ := hsize
  constructor
  · exact hout
  · intro hstatus
    rw [hstatus] at herr ⊢
    refine ⟨?_, told_fits hn, ?_, ?_⟩
    · rw [hout, Stream.received_write, hstatus, Int.toNat_natCast, List.take_take, Nat.min_self]
    · rintro (hwhole | hoff)
      · rw [herr, verdict_whole hwhole]
        rfl
      · rw [herr, noted_of_off hoff]
    · intro hcut hon
      rw [herr, verdict_cut h₂ hcut]
      have hwarn := hears_noted hon m.err
        (.truncated (size - 1) (bytes.untilNul.length + 1))
      simp only [Line.maxText] at hn
      rwa [Report.warning, Failure.pieces_truncated (by omega) (by omega)] at hwarn
  · rintro e hstatus he hle
    rw [hstatus, verdict_neg he] at herr ⊢
    refine ⟨?_, rfl, ?_, ?_⟩
    · rw [hout, Stream.received_write, hstatus, Int.toNat_of_nonpos (Int.le_of_lt he),
        List.take_zero, List.append_nil]
    · intro hoff
      rw [herr, noted_of_off hoff]
    · intro hon
      have hwarn := hears_noted hon m.err (.write e)
      rwa [Report.warning, Failure.pieces_write (by omega), ← herr] at hwarn

end Printed

/-! ## Reachable states -/

/-- The heap answers as before, and the live blocks, their zones and the settings are as before. -/
structure Unmoved (live : List Entry) (m m' : Machine (Guarded N S)) : Prop where
  lookup_eq : ∀ a, m'.heap.ledger.lookup a = m.heap.ledger.lookup a
  live_eq : m'.heap.ledger.live = m.heap.ledger.live
  liveBytes_eq : m'.heap.ledger.liveBytes = m.heap.ledger.liveBytes
  undisturbed : Undisturbed live m.memory m'.memory
  settings_eq : m'.settings = m.settings

variable [BlockSource S] {s₀ : S} {m₀ m : Machine (Guarded N S)} {live : List Entry}
  {ds : List Deed}

theorem unmoved {m' : Machine (Guarded N S)} {log : List Arena.Event} (hN : 0 < N)
    (hs : Lawful s₀) (h : Accounted s₀ log live m) (hm' : Holds s₀ live m.memory [] m')
    (hset : m'.settings = m.settings) : Unmoved live m m' := by
  obtain ⟨log', h', hu⟩ := hm'.accounted
  constructor
  · intro a
    exact h.lookup_congr hN hs h' fun _ _ => .rfl
  · rw [h.live_eq, h'.live_eq]
  · rw [h.liveBytes_eq, h'.liveBytes_eq]
  · exact hu
  · exact hset

/-- Whatever a program did before: without a scratch block printing ends the run with a report, and
with one it shows the text and leaves the heap alone. -/
theorem play_prints (hN : 0 < N) (hs : Lawful s₀) (h₀ : m₀.heap = .new N s₀)
    (hset : m₀.settings = .default)
    (hds : ∀ bytes, .call (.setScratchSize bytes) ∈ ds → bytes < 2 ^ 64)
    (hrun : (play [] ds).run m₀ = .ok live m) (obj : Nat)
    (hn : (shown m.memory obj).untilNul.length ≤ 2 ^ 31 - 2) :
    let text := (shown m.memory obj).untilNul
    let size := m.settings.scratchSize
    let k := min (text.length + 1) (size - 1)
    1 ≤ k ∧
    ((∃ m₁ m', (Heap.alloc size .scratch).run m = .ok (.error (.allocation size)) m₁ ∧
      (print obj).run m = .error .abort m' ∧ m'.out = m.out ∧
      m.err.Hears m'.err
        [Report.fatalHeader, .ofText "ERROR: out of memory\n  requested: ", decimal size,
          .ofText " bytes\n", Report.fatalFooter]) ∨
    ∃ a m₁ answer m', (Heap.alloc size .scratch).run m = .ok (.ok a) m₁ ∧
      (print obj).run m = .ok answer m' ∧ Printed text size k m m' answer ∧
      Unmoved live m m') := by
  intro text size k
  obtain ⟨_, _, hplay, hadv⟩ := (play_cases hN hs (.new h₀) ds).resolve_left (by simp [hrun])
  cases hrun.symm.trans hplay
  obtain ⟨log, h⟩ := hadv.accounted
  have hsize : Usable m.settings.scratchSize := by
    rw [hadv.settings_eq, hset]
    exact usable_foldl_adjust ⟨by decide, by decide⟩ hds
  constructor
  · have : 2 ≤ size := hsize.1
    omega
  rcases print_cases (Guarded.contract hN hs live m.memory) h.holds obj with
    ⟨m₁, ha, hprint, hk⟩ | ⟨a, m₁, m', ha, hprint, hm', hk⟩
  · left
    rw [Action.run_die, Fatal.report_outOfMemory hsize.2, hk.err_eq] at hprint
    exact ⟨m₁, _, ha, hprint, hk.out_eq, m.err.hears_writeAll _⟩
  · right
    have hmoved : Unmoved live m m' := unmoved hN hs h hm' hk.settings_eq
    exact ⟨a, m₁, _, _, ha, hprint, printed hsize hn hk.out_eq rfl, { hmoved with }⟩

/-- The object has a NUL among its bytes, and the scratch block has no room for the last letter. -/
theorem play_prints_cut :
    let m₀ := Guarded.onPage 2
    let header : Bytes := [6, 0, 0, 0, 0, 0, 0, 0, 16, 16, 0, 0, 0, 0, 0, 0]
    let object := header ++ [104, 101, 108, 108, 111, 0]
    let ds : List Deed := [.write 4096 object, .call (.setScratchSize 5)]
    let m := { m₀ with memory := m₀.memory.write 4096 object, settings := ⟨5, true⟩ }
    (play [] ds).run m₀ = .ok [] m ∧
      ∃ m', (print 4096).run m = .ok 4 m' ∧ m'.out.received = [104, 101, 108, 108] ∧
        m'.err.received = Report.warningHeader ++
          (.ofText "print output truncated, wrote " ++ decimal 4 ++ .ofText " of " ++ decimal 6 ++
            .ofText " bytes\n") := by
  intro m₀ header object ds m
  have hrun : (play [] ds).run m₀ = .ok [] m := rfl
  have htext : (shown m.memory 4096).untilNul = [104, 101, 108, 108, 111] := by decide
  have hprints := play_prints (by decide) Arena.lawful_page rfl rfl (by simp [ds]) hrun
    4096 (by rw [htext]; decide)
  dsimp only at hprints
  rw [htext] at hprints
  obtain ⟨-, ⟨_, m', -, hprint, -⟩ | ⟨_, _, answer, m', -, hprint, hp, -⟩⟩ := hprints
  · exact absurd hprint (Action.run_ne_error (by decide) .abort m')
  · obtain ⟨hout, rfl, -, herr⟩ := hp.taken rfl
    have hwarn := (herr (by decide) rfl).received_eq (Stream.takes_of_reply (fun _ _ => rfl) _)
    refine ⟨hrun, m', hprint, hout, hwarn.trans ?_⟩
    simp only [List.flatten_cons, List.flatten_nil, List.append_nil, List.append_assoc]
    rfl

end Program

end HeapGuard
