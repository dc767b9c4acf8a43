/-! # Settings

The size of the scratch block for a line, and whether warnings are written.
-/

namespace HeapGuard

structure Settings where
  scratchSize : Nat
  diagnostics : Bool

namespace Settings

def default : Settings := ⟨4096, true⟩

/-- A scratch block holds at least a line break and the zero byte after it. -/
def clampScratch (bytes : Nat) : Nat := max bytes 2

end Settings

end HeapGuard
