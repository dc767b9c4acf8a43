import HeapGuard.Contention
import HeapGuard.HeapSession
import HeapGuard.Inspection
import HeapGuard.ProcessSession
import HeapGuard.SpinLock
import HeapGuard.Proofs.Contention.Race
import HeapGuard.Proofs.Guarded.Answers
import HeapGuard.Proofs.Guarded.Balance
import HeapGuard.Proofs.Guarded.Scratch
import HeapGuard.Proofs.Heap.Transparency
import HeapGuard.Proofs.Ledger.Bag
import HeapGuard.Proofs.Program.Leaks
import HeapGuard.Proofs.Program.Printing
import HeapGuard.Proofs.StringObject.Integers
import HeapGuard.Proofs.Guarded.Sizes
import HeapGuard.Proofs.Guarded.Writes
import HeapGuard.Proofs.Program.Objects
import HeapGuard.Proofs.Program.Integers
import HeapGuard.Proofs.Checked
import HeapGuard.Proofs.Ledger.Traps
import HeapGuard.Proofs.Numeral.Hexadecimal
import HeapGuard.Proofs.Numeral.Writing
import HeapGuard.Proofs.Report.Reading
import HeapGuard.Proofs.Guarded.LeakReport
import HeapGuard.Proofs.Guarded.Release
import HeapGuard.Proofs.Ledger.Search
import HeapGuard.Proofs.RedZone.History
import HeapGuard.Proofs.Failure
import HeapGuard.Proofs.SpinLock.Completion
