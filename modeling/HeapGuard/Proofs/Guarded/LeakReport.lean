import HeapGuard.Proofs.Guarded.Answers
import HeapGuard.Proofs.Report
import HeapGuard.Proofs.Report.Reading

/-! # The leak report of a guarded heap

After any run the leak report has one line for each live block and no others, and its last
line tells how many there are. The live blocks can be read off the report again, so heaps
with different live blocks give different reports.
-/

namespace HeapGuard

open BlockSource (Separate)
open Numeral
open RedZone (width)
open scoped List

namespace Report

/-- The line has the address in sixteen hexadecimal digits, the size in decimal digits and the name
of the kind. -/
def IsLeakLine (e : Entry) (line : Bytes) : Prop :=
  ∃ addr size, IsHex 16 e.addr addr ∧ IsDecimal e.size size ∧
    line = .ofText "  LEAK: 0x" ++ addr ++ .ofText "  size=" ++ size ++ .ofText "  via=" ++
      e.kind.label ++ .ofText "\n"

/-- The text has one line for each of these blocks, in any order, and no other lines but the header
and the one with their number. -/
structure IsLeakReport (live : List Entry) (text : Bytes) : Prop where
  exists_lines : ∃ entries lines total, entries ~ live ∧ List.Forall₂ IsLeakLine entries lines ∧
    IsDecimal lines.length total ∧
    text = leakHeader ++ lines.flatten ++ (.ofText "  total leaks: " ++ total ++ .ofText "\n\n")
  exists_read : ∃ entries, leaksReader.whole text = some (entries, entries.length) ∧
    entries ~ live

theorem isLeakLine_leakLine {e : Entry} (he : e.IsWord) : IsLeakLine e (leakLine e).flatten := by
  refine ⟨hexDigits 16 e.addr, decimal e.size, isHex_hexDigits ?_, isDecimal_decimal _, ?_⟩
  · have := he.addr_lt
    omega
  · have hsign : Bytes.ofText "  LEAK: 0x" = Bytes.ofText "  LEAK: " ++ Bytes.ofText "0x" := rfl
    rw [leakLine, hexText_eq, decimalText_eq he.size_lt, hsign]
    simp only [List.flatten_cons, List.flatten_nil, List.append_nil, List.append_assoc]

example : (leakLine ⟨0x2f, 42, .buffer⟩).flatten =
    Bytes.ofText "  LEAK: 0x000000000000002f  size=42  via=alloc\n" := by decide

theorem isLeakReport_leaks {entries live : List Entry} (hp : entries ~ live)
    (hw : ∀ e ∈ live, e.IsWord) (hn : live.length < 2 ^ 64) :
    IsLeakReport live (leaks entries live.length).flatten := by
  have hwords : ∀ e ∈ entries, e.IsWord := fun e he => hw e (hp.subset he)
  constructor
  · refine ⟨entries, entries.map fun e => (leakLine e).flatten, decimal live.length, hp, ?_, ?_, ?_⟩
    · rw [List.forall₂_map_right_iff, List.forall₂_same]
      exact fun e he => isLeakLine_leakLine (hwords e he)
    · rw [List.length_map, hp.length_eq]
      exact isDecimal_decimal _
    · rw [flatten_leaks, leakFooter, decimalText_eq hn, List.flatMap_def]
      simp only [List.flatten_cons, List.flatten_nil, List.append_nil, List.append_assoc]
  · refine ⟨entries, ?_, hp⟩
    rw [hp.length_eq]
    exact (reads_leaks hwords hn []).whole_eq

theorem IsLeakReport.ne_nil {live : List Entry} {text : Bytes} (h : IsLeakReport live text) :
    text ≠ [] := by
  obtain ⟨_, _, _, -, -, -, rfl⟩ := h.exists_lines
  intro hnil
  exact absurd (List.append_eq_nil_iff.mp (List.append_eq_nil_iff.mp hnil).1).1 (by decide)

/-- A text is the leak report of one bag of blocks only. -/
theorem IsLeakReport.perm {live live' : List Entry} {text : Bytes} (h : IsLeakReport live text)
    (h' : IsLeakReport live' text) : live ~ live' := by
  obtain ⟨entries, hread, hp⟩ := h.exists_read
  obtain ⟨entries', hread', hp'⟩ := h'.exists_read
  obtain ⟨rfl, -⟩ := Prod.mk.inj (Option.some.inj (hread.symm.trans hread'))
  exact hp.symm.trans hp'

end Report

namespace Guarded

open Report (IsLeakReport)

variable {N : Nat} {S : Type}

/-- Reporting leaks answers how many blocks are live and changes nothing but the error stream, which
hears one leak report if there are any. -/
structure LeaksReported (live : List Entry) (m : Machine (Guarded N S)) : Prop where
  live_eq : m.heap.ledger.live = live.length
  silent : live = [] → reportLeaks.run m = .ok 0 m
  report : live ≠ [] → ∃ err, reportLeaks.run m = .ok live.length { m with err } ∧
    m.err.Hears err (reportLeaks.told m) ∧ IsLeakReport live (reportLeaks.told m).flatten

section Listed

variable {live : List Entry} {m : Machine (Guarded N S)}

theorem Listed.isWord (h : Listed live m) {e : Entry} (he : e ∈ live) : e.IsWord := by
  have := h.bounds e he
  simp only [width, Memory.top] at this
  constructor <;> omega

theorem Listed.length_lt (h : Listed live m) : live.length < 2 ^ 64 := by
  have hsub : live.map Entry.addr ⊆ List.range (2 ^ 64 - 15) := by
    intro a ha
    obtain ⟨e, he, rfl⟩ := List.mem_map.mp ha
    have := h.bounds e he
    simp only [width, Memory.top] at this
    rw [List.mem_range]
    omega
  have hle := (List.subperm_of_subset h.nodup hsub).length_le
  rw [List.length_map, List.length_range] at hle
  omega

theorem Listed.leaksReported (h : Listed live m) : LeaksReported live m := by
  have hlive : m.heap.ledger.live = live.length := by
    rw [h.sound.live_eq, h.entries_perm.length_eq]
  constructor
  · exact hlive
  · rintro rfl
    exact reportLeaks_of_none hlive
  · intro hne
    have hrun := reportLeaks_of_some (hlive ▸ List.length_pos_of_ne_nil hne)
    rw [hlive] at hrun
    have htold : reportLeaks.told m = Report.leaks m.heap.ledger.entries live.length := by
      apply Action.told_of_hears
      rw [Action.after_of_ok hrun]
      exact m.err.hears_writeAll _
    rw [htold]
    exact ⟨_, hrun, m.err.hears_writeAll _,
      Report.isLeakReport_leaks h.entries_perm (fun _ => h.isWord) h.length_lt⟩

theorem LeaksReported.told_of_nil (h : LeaksReported [] m) : reportLeaks.told m = [] :=
  Action.told_of_err_eq (by rw [Action.after_of_ok (h.silent rfl)])

theorem LeaksReported.told_of_ne_nil (h : LeaksReported live m) (hne : live ≠ []) :
    IsLeakReport live (reportLeaks.told m).flatten := by
  obtain ⟨_, -, -, hreport⟩ := h.report hne
  exact hreport

theorem LeaksReported.perm {N' : Nat} {S' : Type} {live' : List Entry}
    {m' : Machine (Guarded N' S')} (h : LeaksReported live m) (h' : LeaksReported live' m')
    (htold : (reportLeaks.told m).flatten = (reportLeaks.told m').flatten) : live ~ live' := by
  rcases eq_or_ne live [] with rfl | hne
  · rcases eq_or_ne live' [] with rfl | hne'
    · exact .nil
    · rw [h.told_of_nil] at htold
      exact absurd htold.symm (h'.told_of_ne_nil hne').ne_nil
  · rcases eq_or_ne live' [] with rfl | hne'
    · rw [h'.told_of_nil] at htold
      exact absurd htold (h.told_of_ne_nil hne).ne_nil
    · have hreport := h.told_of_ne_nil hne
      rw [htold] at hreport
      exact hreport.perm (h'.told_of_ne_nil hne')

end Listed

/-- After any run the leak report lists the live blocks, and no two heaps with different live blocks
give the same report. -/
theorem play_leaksReported {N' : Nat} {S' : Type} [BlockSource S] [BlockSource S'] {s₀ : S}
    {s₀' : S'} {m₀ : Machine (Guarded N S)} {m₀' : Machine (Guarded N' S')} (hs : Separate s₀)
    (h₀ : m₀.heap = .new N s₀) (hs' : Separate s₀') (h₀' : m₀'.heap = .new N' s₀')
    (rs rs' : List Request) :
    LeaksReported (play m₀ rs).1.live (play m₀ rs).2 ∧
      ((reportLeaks.told (play m₀ rs).2).flatten = (reportLeaks.told (play m₀' rs').2).flatten →
        (play m₀ rs).1.live ~ (play m₀' rs').1.live) := by
  have h := (play_listed hs h₀ rs).leaksReported
  have h' := (play_listed hs' h₀' rs').leaksReported
  exact ⟨h, h.perm h'⟩

/-- A block that was refused for want of a slot is not reported, a block that took the address of a
released one is, and with a third slot the report is another one. -/
theorem play_leaksReported_reuse :
    LeaksReported [⟨Arena.base + 16, 4, .buffer⟩, ⟨Arena.base + 64, 1, .scratch⟩]
        (play (onPage 2) reuse).2 ∧
      (reportLeaks.told (play (onPage 2) reuse).2).flatten ≠
        (reportLeaks.told (play (onPage 3) reuse).2).flatten := by
  have hs : Separate (onPage 2).heap.source := Arena.lawful_page.separate
  have hs' : Separate (onPage 3).heap.source := Arena.lawful_page.separate
  have hlive : (play (onPage 2) reuse).1.live =
      [⟨Arena.base + 16, 4, .buffer⟩, ⟨Arena.base + 64, 1, .scratch⟩] := by decide
  obtain ⟨h, hperm⟩ := play_leaksReported hs rfl hs' rfl reuse reuse
  constructor
  · rw [← hlive]
    exact h
  · intro htold
    exact absurd (hperm htold).length_eq (by decide)

end Guarded

end HeapGuard
