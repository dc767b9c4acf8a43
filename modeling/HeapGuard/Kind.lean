import HeapGuard.Bytes

/-! # Kinds of blocks

What a block was asked for. The kind is kept beside the block and shown in reports.
-/

namespace HeapGuard

inductive Kind where
  | buffer
  | scratch
  | object
  deriving DecidableEq, Repr, Hashable

/-- The name under which reports list the kind. -/
def Kind.label : Kind → Bytes
  | .buffer => .ofText "alloc"
  | .scratch => .ofText "scratch"
  | .object => .ofText "object"

def Kind.code : Kind → Nat
  | .buffer => 0
  | .scratch => 1
  | .object => 2

end HeapGuard
