import HeapGuard.Proofs.Numeral.Hexadecimal
import HeapGuard.Report

/-! # Reading reports

A reader takes something off the front of a text. What it takes is known words, or a number
that is told by its digits. Readers are put together like the texts they read, so a leak
report gives its entries back, and the report of a fault the fault.
-/

namespace HeapGuard

open Numeral

structure Entry.IsWord (e : Entry) : Prop where
  addr_lt : e.addr < 2 ^ 64
  size_lt : e.size < 2 ^ 64

def Fault.IsWord : Fault → Prop
  | unknown addr => addr < 2 ^ 64
  | damaged addr size _ => addr < 2 ^ 64 ∧ size < 2 ^ 64

namespace Report

abbrev Reader (α : Type) := StateT Bytes Option α

namespace Reader

variable {α β : Type}

def literal (known : Bytes) : Reader Unit := fun text =>
  if known <+: text then some ((), text.drop known.length) else none

def option (known : Bytes) : Reader Bool := fun text =>
  if known <+: text then some (true, text.drop known.length) else some (false, text)

def number : Reader Nat := fun text =>
  if text.takeWhile isDigit = [] then none
  else some (value (text.takeWhile isDigit), text.dropWhile isDigit)

def hexNumber (k : Nat) : Reader Nat := fun text =>
  if (text.take k).length = k ∧ (text.take k).all isHexDigit then
    some (Nat.ofDigits 16 (hexPlaces (text.take k)), text.drop k)
  else none

def address : Reader Nat := do
  literal (.ofText "0x")
  hexNumber 16

def either (r s : Reader α) : Reader α := fun text => (r text).or (s text)

/-- One reading after another for as long as there is one, but at most `k` times. -/
def many (r : Reader α) : (k : Nat) → Reader (List α)
  | 0 => fun text => some ([], text)
  | k + 1 => fun text =>
    match r text with
    | none => some ([], text)
    | some (a, rest) => (many r k rest).map fun (as, rest) => (a :: as, rest)

def whole (r : Reader α) (text : Bytes) : Option α :=
  (r text).bind fun (a, rest) => if rest = [] then some a else none

/-- The reader takes `text` for `a` where `rest` follows. -/
def Reads (r : Reader α) (text : Bytes) (a : α) (rest : Bytes) : Prop :=
  r (text ++ rest) = some (a, rest)

section Reads

variable {r s : Reader α} {f : α → Reader β} {t u rest known : Bytes} {a : α} {b : β}

theorem reads_pure (a : α) (rest : Bytes) : Reads (pure a) [] a rest := rfl

theorem Reads.bind (hr : Reads r t a (u ++ rest)) (hf : Reads (f a) u b rest) :
    Reads (r >>= f) (t ++ u) b rest := by
  unfold Reads at hr hf ⊢
  change (r ((t ++ u) ++ rest)).bind (fun p => f p.1 p.2) = _
  rw [List.append_assoc, hr]
  exact hf

theorem Reads.get_bind {f : Bytes → Reader β} (h : Reads (f (t ++ rest)) t b rest) :
    Reads (get >>= f) t b rest := h

theorem Reads.bind_pure {g : α → β} (hr : Reads r t a rest) :
    Reads (r >>= fun a => pure (g a)) t (g a) rest := by
  have h := Reads.bind (f := fun a => pure (g a)) (u := []) hr (reads_pure (g a) rest)
  rwa [List.append_nil] at h

theorem reads_literal (known rest : Bytes) : Reads (literal known) known () rest := by
  unfold Reads literal
  rw [if_pos (List.prefix_append known rest), List.drop_left]

theorem not_prefix_append (hkt : ¬ known <+: t) (htk : ¬ t <+: known) : ¬ known <+: t ++ rest := by
  intro h
  rcases List.prefix_or_prefix_of_prefix h (List.prefix_append t rest) with h | h
  · exact hkt h
  · exact htk h

theorem literal_bind_eq_none {g : Unit → Reader β} (h : ¬ known <+: t) :
    (literal known >>= g) t = none := by
  change (literal known t).bind (fun p => g p.1 p.2) = none
  rw [literal, if_neg h]
  rfl

theorem reads_option {here : Bool} (h : ¬ known <+: rest) :
    Reads (option known) (if here then known else []) here rest := by
  unfold Reads option
  cases here with
  | true => simp [List.prefix_append]
  | false => simp [h]

theorem reads_number {v : Nat} (hv : v < 2 ^ 64) (h : rest.takeWhile isDigit = []) :
    Reads number (decimalText v) v rest := by
  have htake : (decimal v ++ rest).takeWhile isDigit = decimal v := by
    rw [List.takeWhile_append_of_pos fun _ => isDigit_of_mem_decimal, h, List.append_nil]
  have hdrop : (decimal v ++ rest).dropWhile isDigit = rest := by
    rw [List.dropWhile_append_of_pos fun _ => isDigit_of_mem_decimal]
    simpa [h] using List.takeWhile_append_dropWhile (p := isDigit) (l := rest)
  unfold Reads number
  rw [decimalText_eq hv, htake, hdrop, if_neg (decimal_ne_nil v), value_decimal]

theorem reads_hexNumber {k v : Nat} (hv : v < 16 ^ k) (rest : Bytes) :
    Reads (hexNumber k) (hexDigits k v) v rest := by
  have hex := isHex_hexDigits hv
  have htake : (hexDigits k v ++ rest).take k = hexDigits k v := List.take_left' hex.length_eq
  have hdrop : (hexDigits k v ++ rest).drop k = rest := List.drop_left' hex.length_eq
  unfold Reads hexNumber
  rw [htake, hdrop, hex.ofDigits_eq, if_pos]
  exact ⟨hex.length_eq, List.all_eq_true.mpr hex.digits⟩

theorem reads_address {v : Nat} (hv : v < 2 ^ 64) (rest : Bytes) :
    Reads address (hexText v) v rest := by
  rw [hexText_eq]
  exact (reads_literal _ _).bind (reads_hexNumber (by omega) rest)

theorem reads_either_left (hr : Reads r t a rest) : Reads (either r s) t a rest := by
  unfold Reads either at *
  rw [hr]
  rfl

theorem reads_either_right (hr : r (t ++ rest) = none) (hs : Reads s t a rest) :
    Reads (either r s) t a rest := by
  unfold Reads either at *
  rw [hr, hs]
  rfl

/-- Texts in a row are read one by one, up to where the reader fails. -/
theorem reads_many {text : α → Bytes} {as : List α} {k : Nat}
    (has : ∀ a ∈ as, ∀ rest, Reads r (text a) a rest) (hk : as.length ≤ k)
    (hrest : r rest = none) : Reads (many r k) (as.flatMap text) as rest := by
  unfold Reads
  induction as generalizing k with
  | nil =>
    cases k with
    | zero => rfl
    | succ k => simp [many, hrest]
  | cons a as ih =>
    obtain ⟨ha, has⟩ := List.forall_mem_cons.mp has
    cases k with
    | zero => cases hk
    | succ k =>
      have htail := ih has (Nat.le_of_succ_le_succ hk)
      have hhead := ha (as.flatMap text ++ rest)
      unfold Reads at hhead
      rw [List.flatMap_cons, List.append_assoc, many]
      simp [hhead, htail]

theorem Reads.whole_eq (h : Reads r t a []) : whole r t = some a := by
  unfold Reads at h
  rw [List.append_nil] at h
  simp [whole, h]

end Reads

end Reader

open Reader

/-! ## Leak reports -/

def kindReader : Reader Kind :=
  either (do literal (.ofText "alloc"); return .buffer) <|
    either (do literal (.ofText "scratch"); return .scratch)
      (do literal (.ofText "object"); return .object)

def leakLineReader : Reader Entry := do
  literal (.ofText "  LEAK: ")
  let addr ← address
  literal (.ofText "  size=")
  let size ← number
  literal (.ofText "  via=")
  let kind ← kindReader
  literal (.ofText "\n")
  return ⟨addr, size, kind⟩

/-- The entries listed, and the number in the last line. -/
def leaksReader : Reader (List Entry × Nat) := do
  literal leakHeader
  let entries ← many leakLineReader (← get).length
  literal (.ofText "  total leaks: ")
  let count ← number
  literal (.ofText "\n\n")
  return (entries, count)

theorem reads_kind (k : Kind) (rest : Bytes) : Reads kindReader k.label k rest := by
  have htext (known : Bytes) (k : Kind) : Reads (do literal known; return k) known k rest :=
    (reads_literal known rest).bind_pure
  cases k with
  | buffer => exact reads_either_left (htext _ _)
  | scratch =>
    apply reads_either_right
    · exact literal_bind_eq_none (not_prefix_append (by decide) (by decide))
    · exact reads_either_left (htext _ _)
  | object =>
    apply reads_either_right
    · exact literal_bind_eq_none (not_prefix_append (by decide) (by decide))
    · apply reads_either_right
      · exact literal_bind_eq_none (not_prefix_append (by decide) (by decide))
      · exact htext _ _

theorem reads_leakLine {e : Entry} (he : e.IsWord) (rest : Bytes) :
    Reads leakLineReader (leakLine e).flatten e rest := by
  unfold leakLineReader leakLine
  simp only [List.flatten_cons, List.flatten_nil, List.append_nil]
  apply (reads_literal _ _).bind
  apply (reads_address he.addr_lt _).bind
  apply (reads_literal _ _).bind
  apply (reads_number he.size_lt rfl).bind
  apply (reads_literal _ _).bind
  apply (reads_kind _ _).bind
  exact (reads_literal _ _).bind_pure

theorem flatten_leaks (entries : List Entry) (count : Nat) :
    (leaks entries count).flatten =
      leakHeader ++ (entries.flatMap fun e => (leakLine e).flatten) ++
        (leakFooter count).flatten := by
  rw [leaks, List.flatten_append, List.flatten_cons, List.flatMap_def, List.flatten_flatten,
    List.map_map]
  rfl

theorem length_le_flatMap_leakLine (entries : List Entry) :
    entries.length ≤ (entries.flatMap fun e => (leakLine e).flatten).length := by
  induction entries with
  | nil => exact Nat.le_refl 0
  | cons e entries ih =>
    have hline : 1 ≤ (leakLine e).flatten.length := by
      simp only [leakLine, List.flatten_cons, List.length_append]
      exact Nat.le_add_right_of_le (by decide)
    rw [List.flatMap_cons, List.length_append, List.length_cons]
    omega

/-- No line of the report is taken for another one. -/
theorem reads_leaks {entries : List Entry} {count : Nat} (hes : ∀ e ∈ entries, e.IsWord)
    (hc : count < 2 ^ 64) (rest : Bytes) :
    Reads leaksReader (leaks entries count).flatten (entries, count) rest := by
  rw [flatten_leaks]
  unfold leaksReader leakFooter
  simp only [List.flatten_cons, List.flatten_nil, List.append_nil, List.append_assoc]
  apply (reads_literal _ _).bind
  apply Reads.get_bind
  apply (reads_many (fun e he => reads_leakLine (hes e he)) _ _).bind
  · apply (reads_literal _ _).bind
    apply (reads_number hc rfl).bind
    exact (reads_literal _ _).bind_pure
  · have := length_le_flatMap_leakLine entries
    rw [List.append_assoc, List.length_append]
    omega
  · rw [List.append_assoc]
    exact literal_bind_eq_none (not_prefix_append (by decide) (by decide))

/-! ## Faults -/

def unknownReader : Reader Fault := do
  literal (.ofText "ERROR: invalid free\n  address: ")
  let addr ← address
  literal (.ofText "\n  Not a live allocation: double free or foreign pointer.\n")
  return .unknown addr

def damagedReader : Reader Fault := do
  literal (.ofText "ERROR: buffer overflow detected (red zone corruption)\n  address: ")
  let addr ← address
  literal (.ofText "\n  size:    ")
  let size ← number
  literal (.ofText " bytes\n")
  let before ← option (.ofText "  -> underflow: prefix red zone corrupted\n")
  let after ← option (.ofText "  -> overflow: suffix red zone corrupted\n")
  return .damaged addr size ⟨before, after⟩

def faultReader : Reader Fault := do
  literal fatalHeader
  let fault ← either unknownReader damagedReader
  literal fatalFooter
  return fault

theorem reads_unknown {addr : Nat} (ha : addr < 2 ^ 64) (rest : Bytes) :
    Reads unknownReader (Fatal.fault (.unknown addr)).body.flatten (.unknown addr) rest := by
  unfold unknownReader Fatal.body
  simp only [List.flatten_cons, List.flatten_nil, List.append_nil]
  apply (reads_literal _ _).bind
  apply (reads_address ha _).bind
  exact (reads_literal _ _).bind_pure

theorem reads_damaged {addr size : Nat} {d : RedZone.Damage} (ha : addr < 2 ^ 64)
    (hn : size < 2 ^ 64) (rest : Bytes) :
    Reads damagedReader (Fatal.fault (.damaged addr size d)).body.flatten (.damaged addr size d)
      (fatalFooter ++ rest) := by
  unfold damagedReader Fatal.body
  simp only [List.flatten_append, apply_ite List.flatten, List.flatten_cons, List.flatten_nil,
    List.append_nil, List.append_assoc]
  apply (reads_literal _ _).bind
  apply (reads_address ha _).bind
  apply (reads_literal _ _).bind
  apply (reads_number hn rfl).bind
  apply (reads_literal _ _).bind
  apply (reads_option _).bind
  · exact (reads_option (not_prefix_append (by decide) (by decide))).bind_pure
  · cases d.after with
    | true => exact not_prefix_append (by decide) (by decide)
    | false => exact not_prefix_append (t := fatalFooter) (by decide) (by decide)

theorem reads_fault_body {f : Fault} (hf : f.IsWord) (rest : Bytes) :
    Reads (either unknownReader damagedReader) (Fatal.fault f).body.flatten f
      (fatalFooter ++ rest) := by
  cases f with
  | unknown addr => exact reads_either_left (reads_unknown hf _)
  | damaged addr size d =>
    apply reads_either_right
    · unfold Fatal.body
      simp only [List.flatten_append, List.flatten_cons, List.append_assoc]
      exact literal_bind_eq_none (not_prefix_append (by decide) (by decide))
    · exact reads_damaged hf.1 hf.2 rest

theorem reads_fault {f : Fault} (hf : f.IsWord) (rest : Bytes) :
    Reads faultReader (Fatal.fault f).report.flatten f rest := by
  unfold faultReader Fatal.report
  rw [List.flatten_append, List.flatten_cons, List.flatten_singleton, List.append_assoc]
  apply (reads_literal _ _).bind
  apply (reads_fault_body hf _).bind
  exact (reads_literal _ _).bind_pure

end Report

end HeapGuard
