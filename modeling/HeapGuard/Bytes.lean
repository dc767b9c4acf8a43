/-! # Bytes

Text is a list of bytes. A text written in the source of this library stands for
one byte per character.
-/

namespace HeapGuard

abbrev Bytes := List UInt8

namespace Bytes

/-- One byte per character, the character's number modulo 256. -/
def ofText (s : String) : Bytes :=
  s.toList.map fun c => c.toNat.toUInt8

/-- The bytes before the first NUL, or all of them if there is none. -/
def untilNul (b : Bytes) : Bytes :=
  b.takeWhile (· != 0)

end Bytes

end HeapGuard
