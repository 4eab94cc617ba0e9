import Gate.Lib.Threads

/-! The cap on a caller's requests in flight (`packages/limiter/concurrency.go`, over the `table` of
`limiter.go`), as `rateLimit` of `packages/edge/ratelimit.go` uses it. Each operation of the table's
`sync.Map` and of a counter is atomic, and any number of requests and sweeps are under way. -/

namespace Gate

open Conc

/-- The address of a counter. -/
abbrev SlotPtr := ℕ

inductive SlotInstr where
  /-- `sync.Map.Load` -/
  | load (key : String)
  /-- `sync.Map.LoadOrStore` of a new counter -/
  | loadOrStore (key : String)
  | add (n : SlotPtr) (d : ℤ)
  | value (n : SlotPtr)
  /-- what the rest of `rateLimit` decides -/
  | limits
  /-- the next handler is called -/
  | serve (key : String)
  /-- the next handler returns -/
  | served (key : String)
  /-- the next entry that `sync.Map.Range` shows, if there is one -/
  | next
  | delete (key : String)

@[reducible] def SlotInstr.Answer : SlotInstr → Type
  | .load _ => Option SlotPtr
  | .loadOrStore _ => SlotPtr
  | .add _ _ | .value _ => ℤ
  | .limits => Bool
  | .serve _ | .served _ | .delete _ => Unit
  | .next => Option (String × SlotPtr)

abbrev SlotProc := Prog SlotInstr.Answer

namespace Concurrency

def load (key : String) : SlotProc (Option SlotPtr) := Prog.exec (SlotInstr.load key)
def loadOrStore (key : String) : SlotProc SlotPtr := Prog.exec (SlotInstr.loadOrStore key)
def add (n : SlotPtr) (d : ℤ) : SlotProc ℤ := Prog.exec (SlotInstr.add n d)
def value (n : SlotPtr) : SlotProc ℤ := Prog.exec (SlotInstr.value n)
def limits : SlotProc Bool := Prog.exec SlotInstr.limits
def serve (key : String) : SlotProc Unit := Prog.exec (SlotInstr.serve key)
def served (key : String) : SlotProc Unit := Prog.exec (SlotInstr.served key)
def next : SlotProc (Option (String × SlotPtr)) := Prog.exec SlotInstr.next
def delete (key : String) : SlotProc Unit := Prog.exec (SlotInstr.delete key)

/-- `table.get`. -/
def get (key : String) : SlotProc SlotPtr := do
  match ← load key with
  | some n => return n
  | none => loadOrStore key

/-- The counter whose slot is taken, which `release` gives back. -/
def acquire (key : String) (limit : ℤ) : SlotProc (Option SlotPtr) := do
  let n ← get key
  let v ← add n 1
  if limit < v then
    let _ ← add n (-1)
    return none
  else return some n

/-- The rest of a request: its limits, and the next handler if they admit it. -/
def proceed (key : String) : SlotProc Unit := do
  if ← limits then
    serve key
    served key
  else return ()

/-- `rateLimit`, for a service whose `MaxConcurrent` is `limit`. The release is deferred. -/
def rateLimit (key : String) (limit : ℤ) : SlotProc Unit := do
  if 0 < limit then
    match ← acquire key limit with
    | none => return ()
    | some n =>
      proceed key
      let _ ← add n (-1)
      return ()
  else proceed key

/-- One turn of `Run`, which shows at most as many entries as the argument says. -/
def sweep : ℕ → SlotProc Unit
  | 0 => return ()
  | visits + 1 => do
    match ← next with
    | none => return ()
    | some (key, n) =>
      let v ← value n
      if v = 0 then
        delete key
        sweep visits
      else sweep visits

end Concurrency

/-- A counter, with the key it was made for. -/
structure SlotCounter where
  key : String
  value : ℤ
  deriving DecidableEq, Repr

structure SlotWorld where
  table : String → Option SlotPtr
  /-- the counters ever made; an address is a place in the list -/
  counters : List SlotCounter
  /-- how many requests of a key the next handler is serving -/
  serving : String → ℕ
  /-- how often the counter of a key was forgotten -/
  evicted : String → ℕ

def SlotWorld.empty : SlotWorld := ⟨fun _ => none, [], fun _ => 0, fun _ => 0⟩

/-- What the world chooses: the entry that `Range` shows, and whether the limits admit a request. -/
structure SlotChoice where
  shown : Option String
  admitted : Bool
  deriving DecidableEq, Repr

namespace SlotWorld

variable (w : SlotWorld)

def count (key : String) : ℕ := w.counters.countP fun c => c.key = key

def stored (key : String) : SlotWorld where
  table := Function.update w.table key (some w.counters.length)
  counters := w.counters ++ [⟨key, 0⟩]
  serving := w.serving
  evicted := w.evicted

def added (n : SlotPtr) (c : SlotCounter) (d : ℤ) : SlotWorld :=
  { w with counters := w.counters.set n { c with value := c.value + d } }

def deleted (key : String) : SlotWorld where
  table := Function.update w.table key none
  counters := w.counters
  serving := w.serving
  evicted := if (w.table key).isSome then Function.update w.evicted key (w.evicted key + 1) else w.evicted

def exec : (i : SlotInstr) → SlotChoice → SlotWorld → Option (i.Answer × SlotWorld)
  | .load key, _, w => some (w.table key, w)
  | .loadOrStore key, _, w =>
    match w.table key with
    | some n => some (n, w)
    | none => some (w.counters.length, w.stored key)
  | .add n d, _, w =>
    match w.counters[n]? with
    | some c => some (c.value + d, w.added n c d)
    | none => none
  | .value n, _, w => (w.counters[n]?).map fun c => (c.value, w)
  | .limits, c, w => some (c.admitted, w)
  | .serve key, _, w => some ((), { w with serving := Function.update w.serving key (w.serving key + 1) })
  | .served key, _, w => some ((), { w with serving := Function.update w.serving key (w.serving key - 1) })
  | .next, c, w =>
    match c.shown with
    | none => some (none, w)
    | some key => (w.table key).map fun n => (some (key, n), w)
  | .delete key, _, w => some ((), w.deleted key)

end SlotWorld

inductive SlotEvent where
  | request (key : String) (limit : ℤ)
  /-- a turn of `Run` -/
  | sweep (visits : ℕ)
  deriving DecidableEq, Repr

def slotSem : Sem SlotInstr.Answer SlotWorld SlotChoice SlotEvent where
  exec i c w := (SlotWorld.exec i c w).map fun out => (out.1, out.2, [])
  ext
    | .request key limit, w => some (w, [Concurrency.rateLimit key limit])
    | .sweep visits, w => some (w, [Concurrency.sweep visits])

abbrev SlotPool := Pool SlotInstr.Answer SlotWorld

def SlotPool.start : SlotPool := ⟨.empty, []⟩

/-- The requests of a key all have a cap, which is at most `cap key`. -/
def capped (cap : String → ℕ) : Pool.Cond SlotInstr SlotWorld SlotChoice SlotEvent where
  instr _ _ _ := True
  event
    | .request key limit, _ => 0 < limit ∧ limit ≤ cap key
    | .sweep _, _ => True

instance (cap : String → ℕ) (i : SlotInstr) (c : SlotChoice) (w : SlotWorld) : Decidable ((capped cap).instr i c w) :=
  isTrue trivial

instance (cap : String → ℕ) (e : SlotEvent) (w : SlotWorld) : Decidable ((capped cap).event e w) :=
  match e with
  | .request key limit => inferInstanceAs (Decidable (0 < limit ∧ limit ≤ cap key))
  | .sweep _ => isTrue trivial

/-- No thread has anything left to do. -/
def SlotPool.Over (p : SlotPool) : Prop := ∀ th ∈ p.threads, th = .ret ()

end Gate
