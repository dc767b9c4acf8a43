import HeapGuard.Frontier
import HeapGuard.ProcessSession.Step
import HeapGuard.ProcessSession.Transcript

/-! # Sessions of a whole process

A session is a list of steps on one guarded heap with room for many blocks, the two
standard streams and the settings. Steps make the calls of compiled programs, the
requests behind them, and changes to the surroundings. A step that would touch memory
it must not touch is refused; a step that halts ends the session.
-/

namespace HeapGuard.ProcessSession

def capacity : Nat := 16384

abbrev ProcessHeap := Guarded capacity Frontier

inductive Answer where
  | done
  | refused
  | null
  | pointer
  | number (n : Int)
  | numbers (ns : List Int)
  | flag (b : Bool)
  | bytes (b : Bytes)
  | released (result : Except Fault Unit)
  /-- A pointer, or why there is none. -/
  | pointerOutcome (failure : Option Failure)
  | outcome (result : Except Failure Int)

/-- What a session keeps beside the machine: how many steps were made, and the blocks they gave. -/
structure Book where
  step : Nat
  registry : Registry

namespace Book

def add (k : Book) (b : NamedBlock) : Book := { k with registry := k.registry.add b }

def addHeap (k : Book) (role : Role) (addr size : Nat) : Book :=
  k.add { step := k.step, role, addr, size, onHeap := true }

def addOwn (k : Book) (addr size : Nat) : Book :=
  k.add { step := k.step, role := .own, addr, size, onHeap := false }

def addIntObject (k : Book) (m : Memory) (obj : Nat) : Book :=
  let data := (StringObject.load m obj).data
  (k.addHeap .data data StringObject.intBufferSize).addHeap .own obj StringObject.headerSize

def release (k : Book) (addr : Nat) : Book := { k with registry := k.registry.release addr }

end Book

/-- The call on addresses, if all its pointers may be used as the call uses them. -/
def resolveCall (r : Registry) (m : Memory) : Program.Call Pointer → Option (Program.Call Nat)
  | .alloc bytes => some (.alloc bytes)
  | .free p => return .free (← r.resolve p)
  | .print .null => some (.print 0)
  | .print p => do
    let a ← r.resolve p
    if r.holdsString m a then some (.print a) else none
  | .sleep ms => some (.sleep ms)
  | .textLength p => do
    let a ← r.resolve p
    if r.holdsText m a then some (.textLength a) else none
  | .stringLength p => do
    let a ← r.resolve p
    if r.holdsString m a then some (.stringLength a) else none
  | .newString .null => some (.newString 0)
  | .newString p => do
    let a ← r.resolve p
    if r.holdsText m a then some (.newString a) else none
  | .ofInt32 value => some (.ofInt32 value)
  | .toInt32 p => do
    let a ← r.resolve p
    if r.holdsString m a then some (.toInt32 a) else none
  | .deleteString p => return .deleteString (← r.resolve p)
  | .deleteArray p => return .deleteArray (← r.resolve p)
  | .setScratchSize bytes => some (.setScratchSize bytes)
  | .scratchSize => some .scratchSize
  | .reportLeaks => some .reportLeaks

def Book.afterCall (k : Book) (m : Memory) : Program.Call Nat → Program.Reply → Book
  | .alloc bytes, .address a => k.addHeap .own a (max bytes 1)
  | .newString _, .address a => if a = 0 then k else k.addHeap .own a StringObject.headerSize
  | .ofInt32 _, .address a => k.addIntObject m a
  | .free a, _ => k.release a
  | .deleteString a, _ => k.release a
  | .deleteArray a, _ => k.release a
  | _, _ => k

def ofReply : Program.Reply → Answer
  | .done => .done
  | .address a => if a = 0 then .null else .pointer
  | .number n => .number n
  | .flag b => .flag b

def pointing (k : Book) (r : Except Failure Nat) (enter : Nat → Book) : Answer × Book :=
  match r with
  | .ok a => (.pointerOutcome none, enter a)
  | .error f => (.pointerOutcome (some f), k)

/-- The addresses of so many further blocks, after those in `got`. -/
def allocMany (bytes : Nat) : (count : Nat) → (got : List Nat) → Action ProcessHeap (List Nat)
  | 0, got => return got.reverse
  | count + 1, got => do allocMany bytes count ((← Program.alloc bytes) :: got)

def perform (k : Book) : Step → Action ProcessHeap (Answer × Book)
  | .call c => do
    match resolveCall k.registry (← Action.memory) c with
    | none => return (.refused, k)
    | some c =>
      let reply ← c.run
      return (ofReply reply, k.afterCall (← Action.memory) c reply)
  | .allocMany count bytes => do
    let addrs ← allocMany bytes count []
    let r := k.registry
    let r := { r with
      batches := (k.step, addrs) :: r.batches
      handedOut := r.handedOut + count }
    return (.done, { k with registry := r })
  | .freeMany step => do
    let r := k.registry
    let addrs := (r.batches.lookup step).getD []
    addrs.forM Program.free
    let r := { r with batches := r.batches.filter (·.1 != step) }
    return (.number addrs.length, { k with registry := r })
  | .text bytes => do
    let size := bytes.length + 1
    match ← Guarded.reserve size .buffer with
    | none => return (.refused, k)
    | some addr =>
      Action.modifyMemory (·.write addr (bytes ++ [0]))
      return (.pointer, k.addOwn addr size)
  | .object data len => do
    match k.registry.resolve data with
    | none => return (.refused, k)
    | some d =>
      match ← Guarded.reserve StringObject.headerSize .object with
      | none => return (.refused, k)
      | some a =>
        Action.modifyMemory fun m => StringObject.store ⟨len, d⟩ m a
        return (.pointer, k.addOwn a StringObject.headerSize)
  | .read p len => do
    match k.registry.resolve p with
    | none => return (.refused, k)
    | some a =>
      if !k.registry.reaches a len then return (.refused, k)
      return (.bytes ((← Action.memory).read a len), k)
  | .write p bytes => do
    match k.registry.resolve p with
    | none => return (.refused, k)
    | some a =>
      if !k.registry.reaches a bytes.length then return (.refused, k)
      Action.modifyMemory (·.write a bytes)
      return (.done, k)
  | .setOut target => do
    modify fun m => { m with out := target.stream }
    return (.done, k)
  | .setErr target => do
    modify fun m => { m with err := target.stream }
    return (.done, k)
  | .alloc bytes => do
    return pointing k (← Heap.alloc bytes .buffer) fun a => k.addHeap .own a (max bytes 1)
  | .free p => do
    match k.registry.resolve p with
    | none | some 0 => return (.refused, k)
    | some a =>
      Heap.release a
      return (.done, k.release a)
  | .tryRelease p => do
    match k.registry.resolve p with
    | none => return (.refused, k)
    | some a =>
      let r ← Guarded.tryRelease a
      return (.released r, if r matches .ok () then k.release a else k)
  | .isLive p => do
    match k.registry.resolve p with
    | none => return (.refused, k)
    | some a => return (.flag (← Guarded.isLive a), k)
  | .print text => do
    let r ← Line.print text (← get).settings.scratchSize
    return (.outcome (r.map Int.ofNat), k)
  | .stringOf p => do
    match k.registry.resolve p with
    | none => return (.refused, k)
    | some a =>
      if !k.registry.holdsText (← Action.memory) a then return (.refused, k)
      return pointing k (← StringObject.ofText a) fun obj =>
        k.addHeap .own obj StringObject.headerSize
  | .intText value => do
    return pointing k (← StringObject.intText value) fun buf =>
      k.addHeap .own buf StringObject.intBufferSize
  | .stringOfInt value => do
    let r ← StringObject.ofInt32 value
    let m ← Action.memory
    return pointing k r fun obj => k.addIntObject m obj
  | .stringToInt p => do
    let m ← Action.memory
    match k.registry.resolve p with
    | none => return (.refused, k)
    | some a =>
      if !k.registry.holdsString m a then return (.refused, k)
      return (.outcome ((← (StringObject.load m a).toInt32).map Int32.toInt), k)
  | .sleep ms => return (.number (Clock.sleep ms), k)
  | .pause s ns => return (.number (Clock.pause s ns), k)
  | .consoleWrite d bytes => do return (.number (← Descriptor.write d bytes), k)
  | .handles => return (.numbers [Descriptor.stdout, Descriptor.stderr], k)
  | .setDiagnostics enabled => do
    modify fun m => { m with settings := { m.settings with diagnostics := enabled } }
    return (.done, k)
  | .diagnostics => do return (.flag (← get).settings.diagnostics, k)
  | .writeErr bytes => do
    Action.writeErr bytes
    return (.done, k)
  | .warn f => do
    Action.warn f
    return (.done, k)
  | .leakHeader => do
    Action.writeErr Report.leakHeader
    return (.done, k)
  | .leakLine e => do
    Action.tell (Report.leakLine e)
    return (.done, k)
  | .leakFooter count => do
    Action.tell (Report.leakFooter count)
    return (.done, k)
  | .die f => Action.die f

/-- What is seen of one step: its answer or how it halted, the texts on the two streams, and the
totals of the ledger after it. -/
structure Record where
  result : Except Halt Answer
  out : Bytes
  err : Bytes
  live : Nat
  liveBytes : Nat

def record (r : Registry) (after : Machine ProcessHeap) (result : Except Halt Answer) : Record :=
  { result
    out := after.out.received
    err := Transcript.render r after.err.received
    live := after.heap.ledger.live
    liveBytes := after.heap.ledger.liveBytes }

def runSteps (m : Machine ProcessHeap) (k : Book) : List Step → List Record
  | [] => []
  | s :: ss =>
    let m := { m with out := m.out.forget, err := m.err.forget }
    match (perform k s).run m with
    | .ok (answer, next) after =>
      record next.registry after (.ok answer) ::
        runSteps after { next with step := k.step + 1 } ss
    | .error halt after => [record k.registry after (.error halt)]

/-- A session that starts with an empty heap and default settings. Where its blocks lie depends on
its steps. -/
def run (steps : List Step) : List Record :=
  runSteps (.start (.new capacity (.seeded (hash steps)))) ⟨0, .empty⟩ steps

end HeapGuard.ProcessSession
