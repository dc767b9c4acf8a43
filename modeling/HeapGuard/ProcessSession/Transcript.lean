import HeapGuard.Numeral.Decimal
import HeapGuard.ProcessSession.Registry

/-! # Transcripts of the error stream

Addresses differ from run to run, so a transcript shows them by the names of their
blocks, and the lines of a leak report in the order of the steps.
-/

namespace HeapGuard.ProcessSession.Transcript

def hexValue? (b : UInt8) : Option Nat :=
  if 48 ≤ b && b ≤ 57 then some (b.toNat - 48)
  else if 97 ≤ b && b ≤ 102 then some (b.toNat - 87)
  else none

def addressWidth : Nat := 18

/-- The address that a text starts with: `0x` and sixteen digits. -/
def address? (text : Bytes) : Option Nat :=
  match text with
  | 48 :: 120 :: rest => do
    let digits ← (rest.take (addressWidth - 2)).mapM hexValue?
    if digits.length = addressWidth - 2 then some (digits.foldl (fun n d => 16 * n + d) 0) else none
  | _ => none

def name (b : NamedBlock) (a : Nat) : Bytes :=
  let role : UInt8 := match b.role with
    | .own => 98
    | .data => 100
  let offset :=
    if a = b.addr then []
    else if b.addr < a then 43 :: Numeral.decimal (a - b.addr)
    else 45 :: Numeral.decimal (b.addr - a)
  60 :: role :: Numeral.decimal b.step ++ offset ++ [62]

/-- Replace addresses near a block by their names, after `skip` bytes that are left out. What
comes before the text is given in reverse. -/
def renameAfter (r : Registry) : (before : Bytes) → (skip : Nat) → Bytes → Bytes
  | before, _, [] => before.reverse
  | before, skip + 1, _ :: rest => renameAfter r before skip rest
  | before, 0, b :: rest =>
    match (address? (b :: rest)).bind fun a => (r.around? a).map (name · a) with
    | some n => renameAfter r (n.reverse ++ before) (addressWidth - 1) rest
    | none => renameAfter r (b :: before) 0 rest

def rename (r : Registry) (text : Bytes) : Bytes := renameAfter r [] 0 text

def lines (text : Bytes) : List Bytes :=
  text.foldr
    (fun b ls =>
      match ls with
      | l :: ls => if b = 10 then [b] :: l :: ls else (b :: l) :: ls
      | [] => [[b]])
    []

def leakMark : Bytes := .ofText "  LEAK: "

def leakBlock? (r : Registry) (line : Bytes) : Option NamedBlock := do
  let a ← address? (line.drop leakMark.length)
  r.blocks.find? (·.addr == a)

/-- Earlier steps first, data before the step's own block, unnamed blocks last. -/
def blockBefore : Option NamedBlock → Option NamedBlock → Bool
  | some b, some c => b.step < c.step || b.step == c.step && (b.role == .data || c.role == .own)
  | none, some _ => false
  | _, none => true

/-- Order each run of lines of a leak report by the blocks they are about. -/
def orderLeaks (r : Registry) (ls : List Bytes) : List Bytes :=
  let isLeak := leakMark.isPrefixOf
  (ls.splitBy fun x y => isLeak x && isLeak y).flatMap fun group =>
    ((group.map fun l => (leakBlock? r l, l)).mergeSort fun x y => blockBefore x.1 y.1).map Prod.snd

def render (r : Registry) (text : Bytes) : Bytes :=
  (orderLeaks r (lines text)).flatMap (rename r)

end HeapGuard.ProcessSession.Transcript
