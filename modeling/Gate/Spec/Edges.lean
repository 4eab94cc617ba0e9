import Gate.Spec.Reserve

/-! Edges, hub and ledger together. The shared state is the memory of every edge, the
messages on the network and the ledger. A step executes one instruction of one goroutine,
or is an event from outside: a call to a limiter, the hub serving a message, the passing of
time. Clock readings are chosen freely by the step; what a claim assumes about clocks is a
condition on steps. The network never forgets a message, so the hub may serve it late, more
than once, or not at all. -/

namespace Gate

/-- What does not change during a run. -/
structure Deployment where
  env : HubEnv
  cfg : GatewayConfig
  opts : ℕ → LeaseOptions
  bootID : ℕ → String
  /-- the common name in an edge's certificate -/
  cn : ℕ → String
  /-- the safety limit that stands in for a check -/
  rule : Request → Option Request

def Deployment.lease (dep : Deployment) (edge : ℕ) : LeaseOptions := newLease (dep.opts edge)

structure Call where
  edge : ℕ
  body : QuotaLeaseRequest
  deriving DecidableEq, Repr

structure Reply where
  call : ℕ
  req : QuotaLeaseRequest
  body : Except Code QuotaLeaseResponse
  /-- when the hub answered, on the ledger's clock -/
  served : ℤ
  deriving DecidableEq

structure Post where
  edge : ℕ
  body : ReturnLeasesRequest
  deriving DecidableEq, Repr

/-- A flight of an edge's singleflight group. -/
structure Flight where
  id : ℕ
  edge : ℕ
  key : String
  deriving DecidableEq, Repr

/-- What a run leaves on record. -/
inductive Event where
  /-- a take of `cost` from `h` on the reading `t`, at ledger time `now` -/
  | take (h : HPtr) (cost t now : ℤ)
  /-- a held was created at ledger time `now` -/
  | create (h : HPtr) (now : ℤ)
  /-- an adjustment added `n` to the balance of `h` -/
  | adjust (h : HPtr) (n : ℤ)
  /-- an answer reached its goroutine -/
  | receive (r : QuotaLeaseRequest) (resp : QuotaLeaseResponse)
  /-- a grant was added to a balance -/
  | deposit (h : HPtr) (n : ℤ)
  /-- `giveBack` took a balance out -/
  | withdraw (h : HPtr) (n : ℤ)
  | post (r : ReturnLeasesRequest)
  /-- the hub answered a lease request at ledger time `now` -/
  | grant (r : QuotaLeaseRequest) (resp : QuotaLeaseResponse) (now : ℤ)
  | answer (req : Request) (res : Except LimitErr Decision)

structure World where
  /-- the ledger's clock -/
  time : ℤ
  cells : Cell → ℤ
  tokens : HPtr → ℤ
  expiresAt : HPtr → ℤ
  rates : CPtr → ℚ
  cur : CPtr → HPtr
  /-- the next unused identity -/
  fresh : ℕ
  table : List CPtr
  windows : List WPtr
  /-- everything a table ever held -/
  made : List CPtr
  madeWindows : List WPtr
  flights : List Flight
  landed : ℕ → Option (Except LimitErr ℤ)
  calls : List Call
  replies : List Reply
  posts : List Post
  /-- reservations returned to their callers, and whether they are settled -/
  reservations : List (Reservation × Bool)
  ledger : Mem
  log : List Event

def World.init (time : ℤ) (ledger : Mem) : World where
  time := time
  cells := fun _ => 0
  tokens := fun _ => 0
  expiresAt := fun _ => 0
  rates := fun _ => 0
  cur := CPtr.first
  fresh := 1
  table := []
  windows := []
  made := []
  madeWindows := []
  flights := []
  landed := fun _ => none
  calls := []
  replies := []
  posts := []
  reservations := []
  ledger := ledger
  log := []

namespace World

def setCell (w : World) (x : Cell) (v : ℤ) : World := { w with cells := Function.update w.cells x v }

def setTokens (w : World) (h : HPtr) (v : ℤ) : World := { w with tokens := Function.update w.tokens h v }

def record (w : World) (e : Event) : World := { w with log := e :: w.log }

end World

/-- How a step resolves what its instruction leaves open. -/
structure Choice where
  /-- the clock reading, or the random number -/
  value : ℤ := 0
  /-- the loop bound of a goroutine that is started -/
  fuel : ℕ := 0
  /-- which reply is received -/
  index : ℕ := 0
  /-- does the RPC, or the wait, succeed? -/
  ok : Bool := true
  /-- what a `Range` visits -/
  visit : List CPtr := []
  visitWindows : List WPtr := []

inductive Input where
  | tick (d : ℤ)
  | allow (edge fuel : ℕ) (req : Request)
  | reserve (edge fuel : ℕ) (checks : List Request)
  | settle (i : ℕ) (actual : ℤ) (fuel : ℕ)
  /-- one turn of `Lease.Run` -/
  | sweep (edge : ℕ) (cutoff : ℤ)
  | drain (edge : ℕ)
  /-- one turn of `Local.Run` -/
  | sweepLocal (edge : ℕ) (cutoff : ℤ)
  /-- the hub serves a lease request -/
  | serve (call : ℕ) (now : ℤ) (ord : RangeOrder)
  /-- the hub serves a return -/
  | credit (msg : ℕ) (now : ℤ)

/-- What a successful swap of a balance leaves on record. -/
def Note.event (h : HPtr) (old new now : ℤ) : Note → Option Event
  | .take cost t _ => some (.take h cost t now)
  | .expire => none
  | .adjust _ => some (.adjust h (new - old))

def World.casTokens (w : World) (h : HPtr) (old new : ℤ) (note : Note) : World :=
  match note.event h old new w.time with
  | none => w.setTokens h new
  | some e => (w.setTokens h new).record e

/-- An answer leaves the network; a successful one goes on record. -/
def World.receive (w : World) (i : ℕ) (r : QuotaLeaseRequest) : Except Code QuotaLeaseResponse → World
  | .error _ => { w with replies := w.replies.eraseIdx i }
  | .ok resp => ({ w with replies := w.replies.eraseIdx i } : World).record (.receive r resp)

def World.findCounter (w : World) (edge : ℕ) (key : String) : Option CPtr :=
  w.table.find? fun c => c.edge = edge && c.key = key

def World.addCounter (w : World) (c : CPtr) (leaseSize : ℤ) : World :=
  { w.setCell (.leaseSize c) leaseSize with
    fresh := w.fresh + 1, table := w.table ++ [c], made := w.made ++ [c] }

def World.findWindow (w : World) (edge : ℕ) (key : String) : Option WPtr :=
  w.windows.find? fun p => p.edge = edge && p.key = key

def World.addWindow (w : World) (p : WPtr) : World :=
  { w with fresh := w.fresh + 1, windows := w.windows ++ [p], madeWindows := w.madeWindows ++ [p] }

def World.findFlight (w : World) (edge : ℕ) (key : String) : Option Flight :=
  w.flights.find? fun f => f.edge = edge && f.key = key

def World.addFlight (w : World) (f : Flight) : World :=
  { w with fresh := w.fresh + 1, flights := w.flights ++ [f] }

/-- What an instruction answers, does and starts. -/
def execInstr (dep : Deployment) :
    (i : Instr) → Choice → World → Option (i.Answer × World × List (Proc Unit))
  | .load x, _, w => some (w.cells x, w, [])
  | .store x v, _, w => some ((), w.setCell x v, [])
  | .add x d, _, w => some (w.cells x + d, w.setCell x (w.cells x + d), [])
  | .swap x v, _, w => some (w.cells x, w.setCell x v, [])
  | .cas x old new, _, w =>
    if w.cells x = old then some (true, w.setCell x new, []) else some (false, w, [])
  | .loadTokens h, _, w => some (w.tokens h, w, [])
  | .storeTokens h v, _, w => some ((), w.setTokens h v, [])
  | .addTokens h n, _, w =>
    some (w.tokens h + n, (w.setTokens h (w.tokens h + n)).record (.deposit h n), [])
  | .swapTokens h, _, w => some (w.tokens h, (w.setTokens h 0).record (.withdraw h (w.tokens h)), [])
  | .casTokens h old new note, _, w =>
    if w.tokens h = old then some (true, w.casTokens h old new note, []) else some (false, w, [])
  | .loadExpiry h, _, w => some (w.expiresAt h, w, [])
  | .storeExpiry h exp, _, w =>
    some ((), { w with expiresAt := Function.update w.expiresAt h exp }, [])
  | .loadRate c, _, w => some (w.rates c, w, [])
  | .storeRate c rate, _, w => some ((), { w with rates := Function.update w.rates c rate }, [])
  | .loadCur c, _, w => some (w.cur c, w, [])
  | .casCur c old new, _, w =>
    if w.cur c = old then some (true, { w with cur := Function.update w.cur c new }, [])
    else some (false, w, [])
  | .newHeld c win parentWin, _, w =>
    let h : HPtr := ⟨c, w.fresh, win, parentWin⟩
    some (h, ({ w with fresh := w.fresh + 1 } : World).record (.create h w.time), [])
  | .clock _, ch, w => some (ch.value, w, [])
  | .rand n, ch, w => if 0 ≤ ch.value ∧ ch.value < n then some (ch.value, w, []) else none
  | .counter edge leaseSize req, _, w =>
    match w.findCounter edge (stateKey req) with
    | some c => some (c, w, [])
    | none =>
      let c : CPtr := ⟨edge, w.fresh, req.identity⟩
      some (c, w.addCounter c leaseSize, [])
  | .window edge key, _, w =>
    match w.findWindow edge key with
    | some p => some (p, w, [])
    | none => some (⟨edge, w.fresh, key⟩, w.addWindow ⟨edge, w.fresh, key⟩, [])
  | .counters edge, ch, w =>
    -- a `Range` is no snapshot: it may visit what the table held at any time, each key once
    if (∀ c ∈ ch.visit, c ∈ w.made ∧ c.edge = edge) ∧ (ch.visit.map CPtr.key).Nodup then
      some (ch.visit, w, [])
    else none
  | .delete c, _, w =>
    some ((), { w with table := w.table.filter fun c' => !(c'.edge = c.edge && c'.key = c.key) }, [])
  | .windows edge, ch, w =>
    if (∀ p ∈ ch.visitWindows, p ∈ w.madeWindows ∧ p.edge = edge) ∧
        (ch.visitWindows.map WPtr.key).Nodup then
      some (ch.visitWindows, w, [])
    else none
  | .deleteWindow p, _, w =>
    some ((), { w with windows := w.windows.filter fun p' => !(p'.edge = p.edge && p'.key = p.key) }, [])
  | .doChan c req, ch, w =>
    match w.findFlight c.edge c.key with
    | some f => some (f.id, w, [])
    | none =>
      some (w.fresh, w.addFlight ⟨w.fresh, c.edge, c.key⟩,
        [Lease.flight (dep.lease c.edge) ch.fuel w.fresh c req])
  | .await id, ch, w =>
    if ch.ok then (w.landed id).map fun res => (res, w, []) else some (.error .canceled, w, [])
  | .land id _ res, _, w =>
    some ((), { w with
      flights := w.flights.filter fun f => f.id ≠ id
      landed := Function.update w.landed id (some res) }, [])
  | .goRenew c req, _, w => some ((), w, [Lease.renewal c req])
  | .send edge r, _, w => some (w.calls.length, { w with calls := w.calls ++ [⟨edge, r⟩] }, [])
  | .receive call r, ch, w =>
    if ch.ok then
      match w.replies[ch.index]? with
      | some rep =>
        if rep.call = call ∧ rep.req = r then some (rep.body, w.receive ch.index r rep.body, []) else none
      | none => none
    else some (.error .unavailable, w, [])
  | .post edge r, _, w =>
    some (w.posts.length, ({ w with posts := w.posts ++ [⟨edge, r⟩] } : World).record (.post r), [])
  | .attempt _, ch, w => some (ch.ok, w, [])
  | .answered req res, _, w => some ((), w.record (.answer req res), [])
  | .reserved r, _, w => some ((), { w with reservations := w.reservations ++ [(r, false)] }, [])

def allowThread (dep : Deployment) (edge fuel : ℕ) (req : Request) : Proc Unit := do
  let res ← Lease.allow (dep.lease edge) edge fuel req
  answered req res

def reserveThread (dep : Deployment) (edge fuel : ℕ) (checks : List Request) : Proc Unit := do
  let out ← reserve (fallbackAllow (dep.lease edge) edge fuel dep.rule) fuel checks
  reserved out.1

/-- The hub answers a lease request; the answer is on the network from then on. -/
def World.serve (dep : Deployment) (w : World) (i : ℕ) (c : Call) (now : ℤ) (ord : RangeOrder) : World :=
  let (body, m) := requestQuotaLease dep.env dep.cfg (dep.cn c.edge) w.ledger ord now c.body
  let w := { w with ledger := m, replies := w.replies ++ [⟨i, c.body, body, now⟩] }
  match body with
  | .error _ => w
  | .ok resp => w.record (.grant c.body resp now)

/-- `Settle` marks the reservation and adjusts its decisions, the first time only. -/
def World.settle (w : World) (i : ℕ) (actual : ℤ) (fuel : ℕ) : Option (World × List (Proc Unit)) :=
  match w.reservations[i]? with
  | some (r, false) =>
    if r.allowed then
      some ({ w with reservations := w.reservations.set i (r, true) },
        [Gate.settle fuel actual r.results r.costs])
    else none
  | _ => none

def execInput (dep : Deployment) : Input → World → Option (World × List (Proc Unit))
  | .tick d, w => some ({ w with time := w.time + d }, [])
  | .allow edge fuel req, w => some (w, [allowThread dep edge fuel req])
  | .reserve edge fuel checks, w => some (w, [reserveThread dep edge fuel checks])
  | .settle i actual fuel, w => w.settle i actual fuel
  | .sweep edge cutoff, w => some (w, [Lease.sweep (dep.lease edge) (dep.bootID edge) edge cutoff])
  | .drain edge, w => some (w, [Lease.drain (dep.lease edge) (dep.bootID edge) edge])
  | .sweepLocal edge cutoff, w => some (w, [Local.sweep edge cutoff])
  | .serve i now ord, w => (w.calls[i]?).map fun c => (w.serve dep i c now ord, [])
  | .credit i now, w => (w.posts[i]?).map fun p =>
      ({ w with ledger := (returnLeases dep.env dep.cfg (dep.cn p.edge) w.ledger now p.body).2 }, [])

def sem (dep : Deployment) : Conc.Sem Instr.Answer World Choice Input where
  exec := execInstr dep
  ext := execInput dep

abbrev Edges := Conc.Pool Instr.Answer World

abbrev EdgeAct := Conc.Act Choice Input

def Edges.init (time : ℤ) (ledger : Mem) : Edges := ⟨World.init time ledger, []⟩

def Edges.step (dep : Deployment) (p : Edges) (a : EdgeAct) : Option Edges := Conc.Pool.step (sem dep) p a

end Gate
