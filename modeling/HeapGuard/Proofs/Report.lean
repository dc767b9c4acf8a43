import HeapGuard.Proofs.Machine
import HeapGuard.Proofs.Numeral.Field
import HeapGuard.Report

/-! # Reports

A fatal report goes to the error stream, piece by piece, and ends the run. A warning
changes at most the error stream. The numbers in both stand there in their decimal form,
although they went through fields of a fixed width. What an action has written is what its
stream has more than before.
-/

namespace HeapGuard

open Numeral

namespace Stream

/-- The stream takes all of each piece, one after the other. -/
def Takes : Stream → List Bytes → Prop
  | _, [] => True
  | s, b :: pieces => (s.write b).1 = b.length ∧ (s.write b).2.Takes pieces

/-- The pieces are written in turn, each at once, and their text arrives if the stream takes them. -/
structure Hears (before after : Stream) (pieces : List Bytes) : Prop where
  eq_writeAll : after = before.writeAll pieces
  received_eq : before.Takes pieces → after.received = before.received ++ pieces.flatten

variable {s : Stream}

theorem takes_of_reply (h : ∀ writes b, s.reply writes b = b.length) (pieces : List Bytes) :
    s.Takes pieces := by
  induction pieces generalizing s with
  | nil => trivial
  | cons b pieces ih => exact ⟨h s.writes b, ih h⟩

theorem received_write (s : Stream) (b : Bytes) :
    (s.write b).2.received = s.received ++ b.take (s.write b).1.toNat := by
  simp [write, received]

theorem received_writeAll {pieces : List Bytes} (h : s.Takes pieces) :
    (s.writeAll pieces).received = s.received ++ pieces.flatten := by
  induction pieces generalizing s with
  | nil => simp [writeAll]
  | cons b pieces ih =>
    obtain ⟨hb, hpieces⟩ := h
    calc ((s.write b).2.writeAll pieces).received
        = (s.write b).2.received ++ pieces.flatten := ih hpieces
      _ = s.received ++ b ++ pieces.flatten := by
        rw [received_write, hb, Int.toNat_natCast, List.take_length]
      _ = s.received ++ (b :: pieces).flatten := by rw [List.append_assoc, List.flatten_cons]

theorem hears_writeAll (s : Stream) (pieces : List Bytes) : s.Hears (s.writeAll pieces) pieces :=
  ⟨rfl, received_writeAll⟩

theorem writes_writeAll (s : Stream) (pieces : List Bytes) :
    ∃ later, (s.writeAll pieces).writes = later ++ s.writes ∧
      later.reverse.map Write.bytes = pieces := by
  induction pieces generalizing s with
  | nil => exact ⟨[], rfl, rfl⟩
  | cons b pieces ih =>
    obtain ⟨later, hwrites, hbytes⟩ := ih (s.write b).2
    refine ⟨later ++ [⟨b, (s.write b).1⟩], ?_, ?_⟩
    · rw [List.append_assoc]
      exact hwrites
    · simp [hbytes]

end Stream

namespace Failure

theorem pieces_allocation {n : Nat} (hn : n < 10 ^ 20) :
    (allocation n).pieces =
      [.ofText "allocation failed, requested ", decimal n, .ofText " bytes\n"] := by
  rw [pieces, ((Field.blank 20).flush_putDecimal (by decide) hn).text_eq]

theorem pieces_write {s : Int} (hs : s.natAbs < 10 ^ 20) :
    (write s).pieces = [.ofText "console write failed, status ", signed s, .ofText "\n"] := by
  rw [pieces, ((Field.blank 21).flush_putStatus hs (by decide)).text_eq]

/-- What the first number leaves in the field does not show in the second. -/
theorem pieces_truncated {w n : Nat} (hw : w < 10 ^ 20) (hn : n < 10 ^ 20) :
    (truncated w n).pieces =
      [.ofText "print output truncated, wrote ", decimal w, .ofText " of ", decimal n,
        .ofText " bytes\n"] := by
  rw [pieces, ((Field.blank 20).flush_putDecimal (by decide) hw).text_eq,
    (Field.flush_putDecimal _ (by decide) hn).text_eq]

end Failure

theorem Fatal.report_outOfMemory {bytes : Nat} (h : bytes < 2 ^ 64) :
    (outOfMemory bytes).report =
      [Report.fatalHeader, .ofText "ERROR: out of memory\n  requested: ", decimal bytes,
        .ofText " bytes\n", Report.fatalFooter] := by
  rw [report, body, decimalText_eq h]
  rfl

namespace Action

variable {H α : Type}

@[simp] theorem run_die (f : Fatal) (m : Machine H) :
    (die f : Action H α).run m = .error .abort { m with err := m.err.writeAll f.report } := by
  rw [die, EStateM.run_bind, run_tell]
  rfl

@[simp] theorem run_warn (f : Failure) (m : Machine H) :
    (warn f).run m = .ok ()
      { m with
        err := if m.settings.diagnostics then m.err.writeAll (Report.warning f) else m.err } := by
  rcases h : m.settings.diagnostics with _ | _
  all_goals
    simp [warn, h]

def after (x : Action H α) (m : Machine H) : Machine H :=
  match x.run m with
  | .ok _ m' => m'
  | .error _ m' => m'

/-- What an action has written to the error stream, piece by piece. -/
def told (x : Action H α) (m : Machine H) : List Bytes :=
  (((x.after m).err.writes.take ((x.after m).err.writes.length - m.err.writes.length)).map
    Write.bytes).reverse

section Told

variable {x : Action H α} {m m' : Machine H}

theorem after_of_ok {a : α} (h : x.run m = .ok a m') : x.after m = m' := by
  rw [after, h]

theorem after_of_error {halt : Halt} (h : x.run m = .error halt m') : x.after m = m' := by
  rw [after, h]

theorem told_of_hears {pieces : List Bytes} (h : m.err.Hears (x.after m).err pieces) :
    x.told m = pieces := by
  obtain ⟨later, hwrites, hbytes⟩ := m.err.writes_writeAll pieces
  rw [told, h.eq_writeAll, hwrites, List.length_append, Nat.add_sub_cancel,
    List.take_left, ← List.map_reverse, hbytes]

theorem told_of_err_eq (h : (x.after m).err = m.err) : x.told m = [] := by
  rw [told, h]
  simp

end Told

end Action

end HeapGuard
