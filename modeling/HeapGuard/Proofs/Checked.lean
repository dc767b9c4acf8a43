import HeapGuard.Halt

/-! # Checked steps

Sums, differences, remainders and access to cells that are tested at every step. Most
definitions of this library leave such tests out where nothing can go wrong. That nothing
can is shown by another definition, made of checked steps only, to which they are equal.
-/

namespace HeapGuard

/-- A step that has no result. -/
inductive Mishap where
  | trap (cause : Trap)
  /-- There is no cell with this number. -/
  | outside (index : Nat)
  deriving DecidableEq, Repr

namespace Checked

variable {α β ε : Type} {n : Nat}

def add (a b : Nat) : Except Mishap Nat := (addChecked a b).mapError .trap

def sub (a b : Nat) : Except Mishap Nat := (subChecked a b).mapError .trap

def rem (a n : Nat) : Except Mishap Nat :=
  if n = 0 then .error (.trap .remainderByZero) else .ok (a % n)

def get (cells : Vector α n) (i : Nat) : Except Mishap α :=
  if h : i < n then .ok (cells.get ⟨i, h⟩) else .error (.outside i)

def set (cells : Vector α n) (i : Nat) (x : α) : Except Mishap (Vector α n) :=
  if h : i < n then .ok (cells.set i x h) else .error (.outside i)

@[simp] theorem ok_bind (a : α) (f : α → Except ε β) : (Except.ok a >>= f) = f a := rfl

@[simp] theorem error_bind (e : ε) (f : α → Except ε β) : (Except.error e >>= f) = .error e := rfl

@[simp] theorem pure_eq_ok (a : α) : (pure a : Except ε α) = .ok a := rfl

theorem add_of_lt {a b : Nat} (h : a + b < 0x10000000000000000) : add a b = .ok (a + b) := by
  rw [add, addChecked, if_pos h]
  rfl

theorem sub_of_le {a b : Nat} (h : b ≤ a) : sub a b = .ok (a - b) := by
  rw [sub, subChecked, if_pos h]
  rfl

theorem rem_of_pos {a n : Nat} (h : 0 < n) : rem a n = .ok (a % n) := if_neg (Nat.ne_of_gt h)

theorem get_of_lt {cells : Vector α n} {i : Nat} (h : i < n) :
    get cells i = .ok (cells.get ⟨i, h⟩) := dif_pos h

theorem set_of_lt {cells : Vector α n} {i : Nat} {x : α} (h : i < n) :
    set cells i x = .ok (cells.set i x h) := dif_pos h

end Checked

end HeapGuard
