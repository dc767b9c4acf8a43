import HeapGuard.Bytes

/-! # Memory

A byte for every address below `2 ^ 64`. The bytes are the leaves of a binary
tree over the address bits, and a leaf stands for a whole range of equal bytes,
so that filling a range takes as long for a large range as for a small one.
-/

namespace HeapGuard

/-- The bytes of a range of addresses; `leaf b` holds `b` everywhere. -/
inductive ByteTree where
  | leaf (b : UInt8)
  | node (l r : ByteTree)

namespace ByteTree

def span : (d : Nat) → Nat
  | 0 => 1
  | d + 1 => 2 * span d

/-- The widths of the left halves on the way down a tree of depth `d`. -/
def halves : (d : Nat) → List Nat
  | 0 => []
  | d + 1 => span d :: halves d

def get : ByteTree → List Nat → (a : Nat) → UInt8
  | leaf b, _, _ => b
  | node l r, half :: hs, a => if a < half then l.get hs a else r.get hs (a - half)
  | node l _, [], a => l.get [] a

/-- Set the bytes at the offsets from `lo` up to, not including, `hi`. -/
def fill (b : UInt8) : List Nat → ByteTree → (lo hi : Nat) → ByteTree
  | [], t, lo, hi => if lo = 0 ∧ 0 < hi then leaf b else t
  | half :: hs, t, lo, hi =>
    if hi ≤ lo then t
    else if lo = 0 ∧ 2 * half ≤ hi then leaf b
    else
      match t with
      | leaf c =>
        node (fill b hs (leaf c) lo (min hi half)) (fill b hs (leaf c) (lo - half) (hi - half))
      | node l r => node (fill b hs l lo (min hi half)) (fill b hs r (lo - half) (hi - half))

/-- Put bytes at the offsets from `lo` on. With the tree come the bytes that lie beyond its end. -/
def write : List Nat → ByteTree → (lo : Nat) → Bytes → ByteTree × Bytes
  | _, t, _, [] => (t, [])
  | [], t, lo, b :: bs => if lo = 0 then (leaf b, bs) else (t, b :: bs)
  | half :: hs, t, lo, b :: bs =>
    let (l, r) := match t with
      | leaf c => (leaf c, leaf c)
      | node l r => (l, r)
    if half ≤ lo then
      let (r, rest) := write hs r (lo - half) (b :: bs)
      (node l r, rest)
    else
      let (l, rest) := write hs l lo (b :: bs)
      let (r, rest) := write hs r 0 rest
      (node l r, rest)

def slice : ByteTree → List Nat → (lo hi : Nat) → (rest : Bytes) → Bytes
  | leaf b, _, lo, hi, rest => List.replicate (hi - lo) b ++ rest
  | node l r, half :: hs, lo, hi, rest =>
    if hi ≤ lo then rest
    else l.slice hs lo (min hi half) (r.slice hs (lo - half) (hi - half) rest)
  | node l _, [], lo, hi, rest => l.slice [] lo hi rest

def zeroFrom : ByteTree → List Nat → (lo : Nat) → Option Nat
  | leaf b, _, lo => if b = 0 then some lo else none
  | node l r, half :: hs, lo =>
    match if lo < half then l.zeroFrom hs lo else none with
    | some i => some i
    | none => (r.zeroFrom hs (lo - half)).map (· + half)
  | node l _, [], lo => l.zeroFrom [] lo

theorem get_fill (b : UInt8) (d : Nat) (t : ByteTree) (lo hi a : Nat) (h : a < span d) :
    (t.fill b (halves d) lo hi).get (halves d) a =
      if lo ≤ a ∧ a < hi then b else t.get (halves d) a := by
  induction d generalizing t lo hi a with
  | zero =>
    obtain rfl : a = 0 := Nat.lt_one_iff.mp h
    simp only [halves, fill]
    by_cases hc : lo = 0 ∧ 0 < hi
    · simp [hc, get]
    · rw [if_neg hc, if_neg (by omega)]
  | succ d ih =>
    have hd : span (d + 1) = 2 * span d := rfl
    have split_node (l r : ByteTree) :
        (node (fill b (halves d) l lo (min hi (span d)))
          (fill b (halves d) r (lo - span d) (hi - span d))).get (span d :: halves d) a =
        if lo ≤ a ∧ a < hi then b else (node l r).get (span d :: halves d) a := by
      simp only [get]
      split
      · rw [ih _ _ _ _ (by omega)]
        grind
      · rw [ih _ _ _ _ (by omega)]
        grind
    simp only [halves, fill]
    split
    · rw [if_neg (by omega)]
    · split
      · rw [if_pos (by omega)]
        rfl
      · cases t with
        | leaf c => simpa [get] using split_node (leaf c) (leaf c)
        | node l r => exact split_node l r

theorem write_snd (d : Nat) (t : ByteTree) (lo : Nat) (bs : Bytes) :
    (t.write (halves d) lo bs).2 = bs.drop (span d - lo) := by
  induction d generalizing t lo bs with
  | zero =>
    cases bs with
    | nil => simp [write]
    | cons b bs =>
      by_cases h : lo = 0
      · simp [halves, span, write, h]
      · simp [halves, span, write, h, show 1 - lo = 0 by omega]
  | succ d ih =>
    have hd : span (d + 1) = 2 * span d := rfl
    cases bs with
    | nil => simp [write]
    | cons b bs =>
      simp only [halves, write]
      split
      · rw [ih]
        congr 1
        omega
      · rw [ih, ih, List.drop_drop]
        congr 1
        omega

theorem get_write (d : Nat) (t : ByteTree) (lo : Nat) (bs : Bytes) (a : Nat) (h : a < span d) :
    (t.write (halves d) lo bs).1.get (halves d) a =
      if lo ≤ a then bs[a - lo]?.getD (t.get (halves d) a) else t.get (halves d) a := by
  induction d generalizing t lo bs a with
  | zero =>
    obtain rfl : a = 0 := Nat.lt_one_iff.mp h
    by_cases hl : lo = 0
    · cases bs <;> simp [halves, write, hl, get]
    · cases bs <;> simp [halves, write, hl]
  | succ d ih =>
    have hd : span (d + 1) = 2 * span d := rfl
    cases bs with
    | nil => simp [write]
    | cons b bs =>
      have put_node (l r : ByteTree) :
          (if span d ≤ lo then
              (node l (r.write (halves d) (lo - span d) (b :: bs)).1,
                (r.write (halves d) (lo - span d) (b :: bs)).2)
            else
              (node (l.write (halves d) lo (b :: bs)).1
                (r.write (halves d) 0 (l.write (halves d) lo (b :: bs)).2).1,
                (r.write (halves d) 0 (l.write (halves d) lo (b :: bs)).2).2)).1.get
            (span d :: halves d) a =
          if lo ≤ a then (b :: bs)[a - lo]?.getD ((node l r).get (span d :: halves d) a)
            else (node l r).get (span d :: halves d) a := by
        by_cases hc : a < span d
        · split
          · simp [get, hc, show ¬ lo ≤ a by omega]
          · simp only [get, hc, if_true, ih _ _ _ _ hc]
        · split
          · simp only [get, hc, if_false, ih _ _ _ _ (show a - span d < span d by omega),
              show lo - span d ≤ a - span d ↔ lo ≤ a by omega,
              show a - span d - (lo - span d) = a - lo by omega]
          · simp only [get, hc, if_false, ih _ _ _ _ (show a - span d < span d by omega), write_snd,
              List.getElem?_drop, Nat.zero_le, if_true, Nat.sub_zero, show lo ≤ a by omega,
              show span d - lo + (a - span d) = a - lo by omega]
      simp only [halves, write]
      cases t with
      | leaf c => exact (put_node (leaf c) (leaf c)).trans (by simp [get])
      | node l r => exact put_node l r

theorem get_ne_zero_of_zeroFrom_eq_none {d : Nat} {t : ByteTree} {lo x : Nat}
    (h : t.zeroFrom (halves d) lo = none) (hlo : lo ≤ x) (hx : x < span d) :
    t.get (halves d) x ≠ 0 := by
  induction d generalizing t lo x with
  | zero =>
    induction t with
    | leaf b => simpa [zeroFrom, get] using h
    | node l r hl _ => exact hl h
  | succ d ih =>
    have hd : span (d + 1) = 2 * span d := rfl
    cases t with
    | leaf b => simpa [zeroFrom, get] using h
    | node l r =>
      simp only [halves, zeroFrom] at h
      split at h
      · cases h
      · next hl =>
        simp only [halves, get]
        split
        · rw [if_pos (by omega)] at hl
          exact ih hl hlo (by assumption)
        · exact ih (Option.map_eq_none_iff.mp h) (by omega) (by omega)

theorem of_zeroFrom_eq_some {d : Nat} {t : ByteTree} {lo i : Nat} (hlo : lo < span d)
    (h : t.zeroFrom (halves d) lo = some i) :
    lo ≤ i ∧ i < span d ∧ t.get (halves d) i = 0 ∧
      ∀ x, lo ≤ x → x < i → t.get (halves d) x ≠ 0 := by
  have of_leaf (b : UInt8) (hs : List Nat) {n lo i : Nat} (hlo : lo < n)
      (h : (leaf b).zeroFrom hs lo = some i) :
      lo ≤ i ∧ i < n ∧ (leaf b).get hs i = 0 ∧ ∀ x, lo ≤ x → x < i → (leaf b).get hs x ≠ 0 := by
    simp only [zeroFrom] at h
    split at h
    · next hb =>
      cases h
      exact ⟨Nat.le_refl _, hlo, hb, fun x _ _ => by omega⟩
    · cases h
  induction d generalizing t lo i with
  | zero =>
    induction t with
    | leaf b => exact of_leaf b _ hlo h
    | node l r hl _ => exact hl h
  | succ d ih =>
    have hd : span (d + 1) = 2 * span d := rfl
    cases t with
    | leaf b => exact of_leaf b _ hlo h
    | node l r =>
      simp only [halves, zeroFrom] at h
      simp only [halves, get]
      split at h
      · next j hl =>
        cases h
        split at hl
        · obtain ⟨h₁, h₂, h₃, h₄⟩ := ih (by assumption) hl
          refine ⟨h₁, by omega, by rwa [if_pos h₂], fun x hx hxj => ?_⟩
          rw [if_pos (by omega)]
          exact h₄ x hx hxj
        · cases hl
      · next hl =>
        obtain ⟨j, hj, rfl⟩ := Option.map_eq_some_iff.mp h
        obtain ⟨h₁, h₂, h₃, h₄⟩ := ih (by omega) hj
        refine ⟨by omega, by omega, ?_, fun x hx hxj => ?_⟩
        · rwa [if_neg (by omega), Nat.add_sub_cancel]
        · split
          · rw [if_pos (by omega)] at hl
            exact get_ne_zero_of_zeroFrom_eq_none hl hx (by assumption)
          · exact h₄ _ (by omega) (by omega)

theorem slice_eq (d : Nat) (t : ByteTree) (lo hi : Nat) (rest : Bytes) :
    t.slice (halves d) lo hi rest =
      (List.range' lo (hi - lo)).map (t.get (halves d)) ++ rest := by
  have constant (b : UInt8) (lo n : Nat) :
      List.replicate n b = (List.range' lo n).map fun _ => b := by
    rw [List.map_const', List.length_range']
  induction d generalizing t lo hi rest with
  | zero =>
    induction t with
    | leaf b => simp only [slice, constant b lo]; rfl
    | node l r hl _ => exact hl
  | succ d ih =>
    cases t with
    | leaf b => simp only [slice, constant b lo]; rfl
    | node l r =>
      simp only [halves, slice]
      split
      · next h => simp [Nat.sub_eq_zero_of_le h]
      · next h =>
        rw [ih, ih, ← List.append_assoc]
        congr 1
        apply List.ext_getElem
        · simp only [List.length_append, List.length_map, List.length_range']
          omega
        · intro i _ hi
          simp only [List.length_map, List.length_range'] at hi
          simp only [List.getElem_append, List.length_map, List.length_range', List.getElem_map,
            List.getElem_range', get]
          split
          · rw [if_pos (by omega)]
          · rw [if_neg (by omega)]
            congr 1
            omega

end ByteTree

structure Memory where
  tree : ByteTree

namespace Memory

def top : Nat := 0x10000000000000000

def space : List Nat := ByteTree.halves 64

def zeroed : Memory := ⟨.leaf 0⟩

/-- The byte at an address; there is only zero beyond the last one. -/
def get (m : Memory) (a : Nat) : UInt8 :=
  if a < top then m.tree.get space a else 0

def fill (m : Memory) (a n : Nat) (b : UInt8) : Memory :=
  ⟨m.tree.fill b space a (min (a + n) top)⟩

def set (m : Memory) (a : Nat) (b : UInt8) : Memory :=
  m.fill a 1 b

def read (m : Memory) (a n : Nat) : Bytes :=
  m.tree.slice space a (min (a + n) top) (List.replicate (a + n - max a top) 0)

def write (m : Memory) (a : Nat) (bs : Bytes) : Memory :=
  ⟨(m.tree.write space a bs).1⟩

def findNul (m : Memory) (a : Nat) : Nat :=
  if a < top then (m.tree.zeroFrom space a).getD top else a

def offset? (a : Nat) (distance : Int) : Option Nat :=
  let b := a + distance
  if 0 ≤ b ∧ b < top then some b.toNat else none

def textLength (m : Memory) (a : Nat) : Nat :=
  m.findNul a - a

def text (m : Memory) (a : Nat) : Bytes :=
  m.read a (m.textLength a)

/-- The number in the 8 bytes at `a`, least significant byte first. -/
def readWord (m : Memory) (a : Nat) : Nat :=
  (m.read a 8).foldr (fun b n => b.toNat + 256 * n) 0

def wordBytes (w : Nat) : Bytes :=
  (List.range 8).map fun i => (w >>> (8 * i)).toUInt8

def writeWord (m : Memory) (a w : Nat) : Memory :=
  m.write a (wordBytes w)

@[simp] theorem get_zeroed (x : Nat) : zeroed.get x = 0 := by
  simp [zeroed, get, ByteTree.get]

theorem get_fill (m : Memory) (a n : Nat) (b : UInt8) (x : Nat) :
    (m.fill a n b).get x = if a ≤ x ∧ x < a + n ∧ x < top then b else m.get x := by
  by_cases h : x < top
  · simp only [get, h, if_true, fill, space, and_true]
    rw [ByteTree.get_fill _ _ _ _ _ _ h]
    grind
  · simp [get, h]

theorem get_set (m : Memory) (a : Nat) (b : UInt8) (x : Nat) :
    (m.set a b).get x = if x = a ∧ x < top then b else m.get x := by
  rw [set, get_fill]
  grind

theorem get_write (m : Memory) (a : Nat) (bs : Bytes) (x : Nat) :
    (m.write a bs).get x = if a ≤ x ∧ x < top then bs[x - a]?.getD (m.get x) else m.get x := by
  by_cases h : x < top
  · simp only [get, h, if_true, write, space, and_true]
    exact ByteTree.get_write _ _ _ _ _ h
  · simp [get, h]

theorem get_write_of_outside (m : Memory) (a : Nat) (bs : Bytes) (x : Nat)
    (h : x < a ∨ a + bs.length ≤ x) : (m.write a bs).get x = m.get x := by
  rw [get_write]
  split
  · rw [List.getElem?_eq_none (by omega), Option.getD_none]
  · rfl

theorem get_write_of_inside (m : Memory) (a : Nat) (bs : Bytes) (i : Nat) (hi : i < bs.length)
    (h : a + i < top) : (m.write a bs).get (a + i) = bs[i] := by
  simp [get_write, h, hi]

theorem read_eq (m : Memory) (a n : Nat) :
    m.read a n = (List.range n).map fun i => m.get (a + i) := by
  rw [read, space, ByteTree.slice_eq]
  apply List.ext_getElem
  · simp only [List.length_append, List.length_map, List.length_range', List.length_replicate,
      List.length_range]
    omega
  · intro i _ hi
    simp only [List.length_map, List.length_range] at hi
    simp only [List.getElem_append, List.length_map, List.length_range', List.getElem_map,
      List.getElem_range', List.getElem_range, List.getElem_replicate, get]
    split
    · rw [if_pos (by omega), Nat.one_mul, space]
    · rw [if_neg (by omega)]

@[simp] theorem length_read (m : Memory) (a n : Nat) : (m.read a n).length = n := by
  simp [read_eq]

theorem read_write (m : Memory) (a : Nat) (bs : Bytes) (h : a + bs.length ≤ top) :
    (m.write a bs).read a bs.length = bs := by
  apply List.ext_getElem
  · simp
  · intro i _ hi
    simp only [read_eq, List.getElem_map, List.getElem_range]
    exact get_write_of_inside m a bs i hi (by omega)

theorem le_findNul (m : Memory) (a : Nat) : a ≤ m.findNul a := by
  unfold findNul
  split
  · next h =>
    cases hz : m.tree.zeroFrom space a with
    | none => exact Nat.le_of_lt h
    | some i => exact (ByteTree.of_zeroFrom_eq_some h hz).1
  · exact Nat.le_refl a

theorem get_findNul (m : Memory) (a : Nat) : m.get (m.findNul a) = 0 := by
  unfold findNul
  split
  · next h =>
    cases hz : m.tree.zeroFrom space a with
    | none => simp [get]
    | some i =>
      obtain ⟨-, hi, h₀, -⟩ := ByteTree.of_zeroFrom_eq_some h hz
      rw [Option.getD_some, get, if_pos (show i < top from hi)]
      exact h₀
  · next h => rw [get, if_neg h]

theorem get_ne_zero_of_lt_findNul (m : Memory) {a x : Nat} (ha : a ≤ x) (hx : x < m.findNul a) :
    m.get x ≠ 0 := by
  unfold findNul at hx
  split at hx
  · next h =>
    cases hz : m.tree.zeroFrom space a with
    | none =>
      rw [hz, Option.getD_none] at hx
      rw [get, if_pos hx]
      exact ByteTree.get_ne_zero_of_zeroFrom_eq_none hz ha hx
    | some i =>
      obtain ⟨-, hi, -, h₁⟩ := ByteTree.of_zeroFrom_eq_some h hz
      rw [hz, Option.getD_some] at hx
      rw [get, if_pos (show x < top from Nat.lt_trans hx hi)]
      exact h₁ x ha hx
  · omega

end Memory

end HeapGuard
