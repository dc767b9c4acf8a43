import HeapGuard.Console
import HeapGuard.ProcessSession.Registry
import HeapGuard.Program

/-! # Steps of a process

What a session can ask of a process.
-/

namespace HeapGuard.ProcessSession

inductive Step where
  | call (c : Program.Call Pointer)
  | allocMany (count bytes : Nat)
  | freeMany (step : Nat)
  | text (bytes : Bytes)
  | object (data : Pointer) (len : Nat)
  | read (p : Pointer) (len : Nat)
  | write (p : Pointer) (bytes : Bytes)
  | setOut (target : Target)
  | setErr (target : Target)
  | alloc (bytes : Nat)
  | free (p : Pointer)
  | tryRelease (p : Pointer)
  | isLive (p : Pointer)
  | print (text : Bytes)
  | stringOf (p : Pointer)
  | intText (value : Int32)
  | stringOfInt (value : Int32)
  | stringToInt (p : Pointer)
  | sleep (milliseconds : Int32)
  | pause (seconds nanoseconds : Int)
  | consoleWrite (descriptor : Int) (bytes : Bytes)
  | handles
  | setDiagnostics (enabled : Bool)
  | diagnostics
  | writeErr (bytes : Bytes)
  | warn (f : Failure)
  | leakHeader
  | leakLine (e : Entry)
  | leakFooter (count : Nat)
  | die (f : Fatal)
  deriving Hashable

end HeapGuard.ProcessSession
