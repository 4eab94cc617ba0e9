import Gate.Lib.Threads
import Gate.Spec.Hub

/-! Requests, decisions and the shared memory of the edge limiters (`packages/limiter`).
An edge's goroutines share memory through atomic loads, stores, adds, swaps and
compare-and-swaps, a singleflight group, and RPCs to the hub. Each of these is one
instruction here, so a limiter method is a program that other goroutines may interrupt
between any two of them. Machine integers are unbounded, and times are whole
milliseconds of the edge's clock. -/

namespace Gate

structure Request where
  scope : String
  service : String
  /-- "" is the caller's tier limit -/
  limitID : String
  key : String
  tier : String
  org : String
  limit : ℤ
  /-- ≤ 0 counts as 1 -/
  cost : ℤ
  window : ℤ
  algo : Algo
  leaseSize : ℤ
  shadow : Bool
  maxDebt : ℤ
  deriving DecidableEq, Repr

def stateKey (req : Request) : String :=
  req.scope ++ "\x00" ++ req.service ++ "\x00" ++ req.limitID ++ "\x00" ++ req.key

/-- The identity fields a `leaseCounter` keeps for returns. -/
def Request.identity (req : Request) : Request :=
  { scope := req.scope, service := req.service, limitID := req.limitID, key := req.key,
    tier := req.tier, org := req.org, limit := 0, cost := 0, window := 0, algo := .unset,
    leaseSize := 0, shadow := false, maxDebt := 0 }

def fixedWindow (req : Request) : Bool :=
  0 < req.window && (req.algo = .unset || req.algo = .fixedWindow)

/-- The end of the epoch-aligned window containing `now`; `none` is the zero time. -/
def windowEnd (period now : ℤ) : Option ℤ :=
  let ms := milliseconds period
  if ms ≤ 0 then none else some ((now.tdiv ms + 1) * ms)

/-- A `*leaseCounter`, with the fields that never change. -/
structure CPtr where
  edge : ℕ
  id : ℕ
  req : Request
  deriving DecidableEq, Repr

def CPtr.key (c : CPtr) : String := stateKey c.req

/-- A `*held`, with the fields that never change. -/
structure HPtr where
  c : CPtr
  id : ℕ
  win : ℤ
  parentWin : ℤ
  deriving DecidableEq, Repr

/-- The held a counter starts with. -/
def CPtr.first (c : CPtr) : HPtr := ⟨c, 0, 0, 0⟩

/-- A `*window` of the local limiter. -/
structure WPtr where
  edge : ℕ
  id : ℕ
  key : String
  deriving DecidableEq, Repr

/-- The atomic integers other than the balances and their expiry times. -/
inductive Cell where
  | resetAt (c : CPtr)
  | hubRemaining (c : CPtr)
  | retryAt (c : CPtr)
  | leaseSize (c : CPtr)
  | lastGrant (c : CPtr)
  /-- 1 while a renewal runs -/
  | renewing (c : CPtr)
  | lastSeen (c : CPtr)
  | spent (c : CPtr)
  | sampledAt (c : CPtr)
  | consumed (h : HPtr)
  | backoffUntil (edge : ℕ)
  | returnSeq (edge : ℕ)
  | windowID (w : WPtr)
  | windowConsumed (w : WPtr)
  | windowSeen (w : WPtr)
  deriving DecidableEq, Repr

inductive LimitErr where
  | unavailable
  | rejected
  /-- the caller's context ended -/
  | canceled
  deriving DecidableEq, Repr

def classify : Code → LimitErr
  | .invalidArgument | .notFound | .permissionDenied | .failedPrecondition => .rejected
  | .unavailable | .unknown => .unavailable

inductive Adjuster where
  | held (h : HPtr)
  | window (w : WPtr)
  deriving DecidableEq, Repr

structure Decision where
  allowed : Bool
  limit : ℤ
  remaining : ℤ
  /-- `none` is the zero time -/
  resetAt : Option ℤ
  fallback : Bool
  window : ℤ
  retry : Option ℤ
  adj : Option Adjuster
  gen : ℤ
  maxDebt : ℤ
  deriving DecidableEq, Repr

/-- The zero `Decision`. -/
def Decision.zero : Decision := ⟨false, 0, 0, none, false, 0, none, none, 0, 0⟩

def Decision.retryAt (d : Decision) : Option ℤ := if d.retry.isSome then d.retry else d.resetAt

structure Reservation where
  allowed : Bool
  binding : Decision
  /-- -1 with no checks -/
  bindingIndex : ℤ
  results : List Decision
  shadowDenied : List ℕ
  fallback : Bool
  costs : List ℤ
  deriving DecidableEq, Repr

/-- Why a balance is compared and swapped; the program does not depend on it. -/
inductive Note where
  /-- a take of `cost`, on the clock reading `t`, after seeing the expiry `exp` -/
  | take (cost t exp : ℤ)
  | expire
  | adjust (delta : ℤ)
  deriving DecidableEq, Repr

/-- One atomic step of a goroutine. -/
inductive Instr where
  | load (x : Cell)
  | store (x : Cell) (v : ℤ)
  | add (x : Cell) (d : ℤ)
  | swap (x : Cell) (v : ℤ)
  | cas (x : Cell) (old new : ℤ)
  | loadTokens (h : HPtr)
  | storeTokens (h : HPtr) (v : ℤ)
  | addTokens (h : HPtr) (n : ℤ)
  | swapTokens (h : HPtr)
  | casTokens (h : HPtr) (old new : ℤ) (note : Note)
  | loadExpiry (h : HPtr)
  | storeExpiry (h : HPtr) (exp : ℤ)
  | loadRate (c : CPtr)
  | storeRate (c : CPtr) (rate : ℚ)
  | loadCur (c : CPtr)
  | casCur (c : CPtr) (old new : HPtr)
  | newHeld (c : CPtr) (win parentWin : ℤ)
  /-- `time.Now().UnixMilli()` -/
  | clock (edge : ℕ)
  /-- `rand.Int64N` -/
  | rand (n : ℤ)
  /-- the table's `get` -/
  | counter (edge : ℕ) (leaseSize : ℤ) (req : Request)
  | window (edge : ℕ) (key : String)
  /-- the counters a `Range` visits -/
  | counters (edge : ℕ)
  | delete (c : CPtr)
  | windows (edge : ℕ)
  | deleteWindow (w : WPtr)
  /-- `flights.DoChan`: joins the key's flight or starts one -/
  | doChan (c : CPtr) (req : Request)
  | await (flight : ℕ)
  /-- a flight ends: its key is free again and its waiters have the result -/
  | land (flight : ℕ) (c : CPtr) (res : Except LimitErr ℤ)
  /-- `go` in `renew` -/
  | goRenew (c : CPtr) (req : Request)
  | send (edge : ℕ) (r : QuotaLeaseRequest)
  /-- wait for the answer to a request sent as `call` -/
  | receive (call : ℕ) (r : QuotaLeaseRequest)
  | post (edge : ℕ) (r : ReturnLeasesRequest)
  /-- one attempt to deliver a posted return: did it succeed? -/
  | attempt (msg : ℕ)
  /-- `Allow` or `Reserve` returns to its caller -/
  | answered (req : Request) (res : Except LimitErr Decision)
  | reserved (r : Reservation)

def Instr.Answer : Instr → Type
  | .load _ | .add _ _ | .swap _ _ | .loadTokens _ | .addTokens _ _ | .swapTokens _ => ℤ
  | .loadExpiry _ | .clock _ | .rand _ => ℤ
  | .cas _ _ _ | .casTokens _ _ _ _ | .casCur _ _ _ | .attempt _ => Bool
  | .loadRate _ => ℚ
  | .loadCur _ | .newHeld _ _ _ => HPtr
  | .counter _ _ _ => CPtr
  | .window _ _ => WPtr
  | .counters _ => List CPtr
  | .windows _ => List WPtr
  | .doChan _ _ | .send _ _ | .post _ _ => ℕ
  | .await _ => Except LimitErr ℤ
  | .receive _ _ => Except Code QuotaLeaseResponse
  | .store _ _ | .storeTokens _ _ | .storeExpiry _ _ | .storeRate _ _ | .delete _ | .deleteWindow _
  | .land _ _ _ | .goRenew _ _ | .answered _ _ | .reserved _ => Unit

/-- A goroutine's code. -/
abbrev Proc (α : Type) := Conc.Prog Instr.Answer α

def load (x : Cell) : Proc ℤ := Conc.Prog.exec (Instr.load x)
def store (x : Cell) (v : ℤ) : Proc Unit := Conc.Prog.exec (Instr.store x v)
def add (x : Cell) (d : ℤ) : Proc ℤ := Conc.Prog.exec (Instr.add x d)
def swap (x : Cell) (v : ℤ) : Proc ℤ := Conc.Prog.exec (Instr.swap x v)
def cas (x : Cell) (old new : ℤ) : Proc Bool := Conc.Prog.exec (Instr.cas x old new)
def loadTokens (h : HPtr) : Proc ℤ := Conc.Prog.exec (Instr.loadTokens h)
def storeTokens (h : HPtr) (v : ℤ) : Proc Unit := Conc.Prog.exec (Instr.storeTokens h v)
def addTokens (h : HPtr) (n : ℤ) : Proc ℤ := Conc.Prog.exec (Instr.addTokens h n)
def swapTokens (h : HPtr) : Proc ℤ := Conc.Prog.exec (Instr.swapTokens h)
def casTokens (h : HPtr) (old new : ℤ) (note : Note) : Proc Bool :=
  Conc.Prog.exec (Instr.casTokens h old new note)
def loadExpiry (h : HPtr) : Proc ℤ := Conc.Prog.exec (Instr.loadExpiry h)
def storeExpiry (h : HPtr) (exp : ℤ) : Proc Unit := Conc.Prog.exec (Instr.storeExpiry h exp)
def loadRate (c : CPtr) : Proc ℚ := Conc.Prog.exec (Instr.loadRate c)
def storeRate (c : CPtr) (rate : ℚ) : Proc Unit := Conc.Prog.exec (Instr.storeRate c rate)
def loadCur (c : CPtr) : Proc HPtr := Conc.Prog.exec (Instr.loadCur c)
def casCur (c : CPtr) (old new : HPtr) : Proc Bool := Conc.Prog.exec (Instr.casCur c old new)
def newHeld (c : CPtr) (win parentWin : ℤ) : Proc HPtr := Conc.Prog.exec (Instr.newHeld c win parentWin)
def clock (edge : ℕ) : Proc ℤ := Conc.Prog.exec (Instr.clock edge)
def rand (n : ℤ) : Proc ℤ := Conc.Prog.exec (Instr.rand n)
def getCounter (edge : ℕ) (leaseSize : ℤ) (req : Request) : Proc CPtr :=
  Conc.Prog.exec (Instr.counter edge leaseSize req)
def getWindow (edge : ℕ) (key : String) : Proc WPtr := Conc.Prog.exec (Instr.window edge key)
def rangeCounters (edge : ℕ) : Proc (List CPtr) := Conc.Prog.exec (Instr.counters edge)
def rangeWindows (edge : ℕ) : Proc (List WPtr) := Conc.Prog.exec (Instr.windows edge)
def deleteCounter (c : CPtr) : Proc Unit := Conc.Prog.exec (Instr.delete c)
def deleteWindow (w : WPtr) : Proc Unit := Conc.Prog.exec (Instr.deleteWindow w)
def doChan (c : CPtr) (req : Request) : Proc ℕ := Conc.Prog.exec (Instr.doChan c req)
def await (flight : ℕ) : Proc (Except LimitErr ℤ) := Conc.Prog.exec (Instr.await flight)
def land (flight : ℕ) (c : CPtr) (res : Except LimitErr ℤ) : Proc Unit :=
  Conc.Prog.exec (Instr.land flight c res)
def goRenew (c : CPtr) (req : Request) : Proc Unit := Conc.Prog.exec (Instr.goRenew c req)
def send (edge : ℕ) (r : QuotaLeaseRequest) : Proc ℕ := Conc.Prog.exec (Instr.send edge r)
def receive (call : ℕ) (r : QuotaLeaseRequest) : Proc (Except Code QuotaLeaseResponse) :=
  Conc.Prog.exec (Instr.receive call r)
def post (edge : ℕ) (r : ReturnLeasesRequest) : Proc ℕ := Conc.Prog.exec (Instr.post edge r)
def attempt (msg : ℕ) : Proc Bool := Conc.Prog.exec (Instr.attempt msg)
def answered (req : Request) (res : Except LimitErr Decision) : Proc Unit :=
  Conc.Prog.exec (Instr.answered req res)
def reserved (r : Reservation) : Proc Unit := Conc.Prog.exec (Instr.reserved r)

end Gate
