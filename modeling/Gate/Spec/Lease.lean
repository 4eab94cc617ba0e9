import Gate.Spec.Limiter

/-! The lease limiter (`packages/limiter/lease.go`), method by method. `fuel` bounds the
turns of a compare-and-swap loop. -/

namespace Gate

structure LeaseOptions where
  leaseSize : ℤ
  lowWaterPct : ℚ
  leaseTTL : ℤ
  renewBefore : ℤ
  edgeID : String
  deriving DecidableEq, Repr

/-- The options `NewLease` runs with: zero values take the defaults. -/
def newLease (o : LeaseOptions) : LeaseOptions where
  leaseSize := if o.leaseSize ≤ 0 then 100 else o.leaseSize
  lowWaterPct := if o.lowWaterPct ≤ 0 ∨ 100 < o.lowWaterPct then 20 else o.lowWaterPct
  leaseTTL := if o.leaseTTL ≤ 0 then 60 * second else o.leaseTTL
  renewBefore := if o.renewBefore ≤ 0 then 2 * second else o.renewBefore
  edgeID := o.edgeID

def failureBackoff : ℤ := 500 * millisecond
def missRetries : ℕ := 64
def rateMinSample : ℤ := 100 * millisecond

namespace Lease

def counter (o : LeaseOptions) (edge : ℕ) (req : Request) : Proc CPtr := do
  let c ← getCounter edge o.leaseSize req
  if 0 < req.leaseSize then store (.leaseSize c) req.leaseSize
  return c

/-- The loop of `install`: carry the debt of the held being replaced, and publish `next`. -/
def installLoop (c : CPtr) (next : HPtr) : ℕ → HPtr → Proc HPtr
  | 0, _ => .spin
  | fuel + 1, old => do
    let balance ← loadTokens old
    storeTokens next (min balance 0)
    if ← casCur c old next then return next
    else
      let old ← loadCur c
      if next.win < old.win then return old else installLoop c next fuel old

def install (fuel : ℕ) (c : CPtr) (old : HPtr) (win parentWin : ℤ) : Proc HPtr := do
  let next ← newHeld c win parentWin
  installLoop c next fuel old

def reset (fuel : ℕ) (c : CPtr) (req : Request) (nowMs : ℤ) : Proc Unit := do
  let resetAt ← load (.resetAt c)
  if resetAt ≤ 0 ∨ nowMs < resetAt then return ()
  else if ← cas (.resetAt c) resetAt 0 then
    store (.retryAt c) 0
    if req.algo = .tokenBucket then return ()
    else
      let old ← loadCur c
      let _ ← install fuel c old old.win old.parentWin
      store (.hubRemaining c) 0
  else return ()

def resetTime (c : CPtr) (req : Request) (now : ℤ) : Proc (Option ℤ) := do
  let resetAt ← load (.resetAt c)
  return if 0 < resetAt then some resetAt else windowEnd req.window now

/-- The first loop of `take`: an expired balance is dropped. -/
def dropExpired (h : HPtr) : ℕ → Proc ℤ
  | 0 => .spin
  | fuel + 1 => do
    let cur ← loadTokens h
    if cur ≤ 0 then return -1
    else if ← casTokens h cur 0 .expire then return -1
    else dropExpired h fuel

/-- The second loop of `take`. -/
def spend (h : HPtr) (cost nowMs exp : ℤ) : ℕ → Proc ℤ
  | 0 => .spin
  | fuel + 1 => do
    let cur ← loadTokens h
    if cur < cost then return -1
    else if ← casTokens h cur (cur - cost) (.take cost nowMs exp) then return cur - cost
    else spend h cost nowMs exp fuel

def take (fuel : ℕ) (h : HPtr) (cost nowMs : ℤ) : Proc ℤ := do
  let exp ← loadExpiry h
  if 0 < exp ∧ exp ≤ nowMs then dropExpired h fuel else spend h cost nowMs exp fuel

/-- The loop of `adjust`. -/
def recharge (target : HPtr) (delta maxDebt : ℤ) : ℕ → Proc Unit
  | 0 => .spin
  | fuel + 1 => do
    let cur ← loadTokens target
    let next := if 0 < delta ∧ cur - delta < -maxDebt then min cur (-maxDebt) else cur - delta
    if ← casTokens target cur next (.adjust delta) then return ()
    else recharge target delta maxDebt fuel

def adjustOn (fuel : ℕ) (target : HPtr) (delta maxDebt : ℤ) : Proc Unit := do
  let _ ← add (.consumed target) delta
  recharge target delta maxDebt fuel

/-- `held.adjust`. -/
def adjust (fuel : ℕ) (h : HPtr) (delta maxDebt : ℤ) : Proc Unit := do
  let cur ← loadCur h.c
  if cur = h then adjustOn fuel h delta maxDebt
  else if delta < 0 then return ()
  else adjustOn fuel cur delta maxDebt

/-- The EWMA of demand; durations below are nanoseconds. -/
def observe (c : CPtr) (nowMs : ℤ) : Proc ℚ := do
  let rate ← loadRate c
  let last ← load (.sampledAt c)
  if last = 0 then
    store (.sampledAt c) nowMs
    store (.spent c) 0
    return rate
  else
    let elapsed := (nowMs - last) * millisecond
    if elapsed < rateMinSample then return rate
    else
      let spent ← swap (.spent c) 0
      let inst : ℚ := spent / (elapsed / second)
      store (.sampledAt c) nowMs
      let rate := if rate = 0 then inst else rate / 2 + inst / 2
      storeRate c rate
      return rate

/-- The expiry an answer gives its tokens. -/
def expiry (o : LeaseOptions) (c : CPtr) (sentMs : ℤ) (resp : QuotaLeaseResponse) : Proc ℤ :=
  if 0 < resp.expiresInMs then return sentMs + resp.expiresInMs
  else do
    let ttl := if resp.leaseTtlSeconds * second ≤ 0 then o.leaseTTL else resp.leaseTtlSeconds * second
    let now ← clock c.edge
    let exp := now + milliseconds ttl
    let resetAt ← load (.resetAt c)
    return if 0 < resetAt ∧ resetAt < exp then resetAt else exp

/-- `accept`, once the held that takes the tokens is known. -/
def acceptTokens (o : LeaseOptions) (c : CPtr) (h : HPtr) (sentMs : ℤ) (resp : QuotaLeaseResponse) :
    Proc ℤ := do
  store (.hubRemaining c) resp.remainingGlobal
  if resp.waitingForCapacity then
    let retry := if resp.retryAfterMs ≤ 0 then 500 else resp.retryAfterMs
    let now ← clock c.edge
    let jitter ← rand retry
    store (.retryAt c) (now + retry.tdiv 2 + jitter)
    return 0
  else if resp.grantedTokens ≤ 0 then return 0
  else
    let exp ← expiry o c sentMs resp
    storeExpiry h exp
    let _ ← addTokens h resp.grantedTokens
    store (.lastGrant c) resp.grantedTokens
    return resp.grantedTokens

/-- `accept`, for an answer that names its window, in that window. -/
def acceptWindow (o : LeaseOptions) (c : CPtr) (h : HPtr) (sentMs : ℤ) (resp : QuotaLeaseResponse) :
    Proc ℤ := do
  if 0 < resp.resetInMs then store (.resetAt c) (sentMs + resp.resetInMs)
  acceptTokens o c h sentMs resp

def accept (o : LeaseOptions) (fuel : ℕ) (c : CPtr) (req : Request) (sentMs : ℤ)
    (resp : QuotaLeaseResponse) : Proc ℤ := do
  let h ← loadCur c
  if 0 < resp.expiresInMs ∨ 0 < resp.resetInMs then
    if resp.windowId < h.win then return 0
    else if h.win < resp.windowId then
      let h ← install fuel c h resp.windowId resp.parentWindowId
      if h.win ≠ resp.windowId then return 0 else acceptWindow o c h sentMs resp
    else acceptWindow o c h sentMs resp
  else
    -- an older hub: the edge's own window
    match windowEnd req.window sentMs with
    | none => acceptTokens o c h sentMs resp
    | some stop =>
      let resetAt ← load (.resetAt c)
      if resetAt = 0 then store (.resetAt c) stop
      acceptTokens o c h sentMs resp

def leaseRequest (o : LeaseOptions) (req : Request) (size : ℤ) (rate : ℚ) : QuotaLeaseRequest where
  scope := req.scope
  serviceId := req.service
  apiKey := req.key
  tierId := req.tier
  limitId := req.limitID
  org := req.org
  requestedTokens := size
  edgeId := o.edgeID
  observedRate := rate

/-- What a flight makes of the hub's answer. -/
def conclude (o : LeaseOptions) (fuel : ℕ) (c : CPtr) (req : Request) (sentMs : ℤ) :
    Except Code QuotaLeaseResponse → Proc (Except LimitErr ℤ)
  | .error code =>
    if classify code = .unavailable then do
      let now ← clock c.edge
      store (.backoffUntil c.edge) (now + milliseconds failureBackoff)
      return .error (classify code)
    else return .error (classify code)
  | .ok resp => do
    let granted ← accept o fuel c req sentMs resp
    return .ok granted

/-- The function `fetch` hands to the singleflight group. -/
def flight (o : LeaseOptions) (fuel id : ℕ) (c : CPtr) (req : Request) : Proc Unit := do
  let sentMs ← clock c.edge
  let size ← load (.leaseSize c)
  let rate ← observe c sentMs
  let call ← send c.edge (leaseRequest o req size rate)
  let answer ← receive call (leaseRequest o req size rate)
  let res ← conclude o fuel c req sentMs answer
  land id c res

def fetch (c : CPtr) (req : Request) : Proc (Except LimitErr ℤ) := do
  let now ← clock c.edge
  let backoff ← load (.backoffUntil c.edge)
  if now < backoff then return .error .unavailable
  else
    let id ← doChan c req
    await id

def renew (c : CPtr) (req : Request) : Proc Unit := do
  let retryAt ← load (.retryAt c)
  if 0 < retryAt then return ()
  else if ← cas (.renewing c) 0 1 then goRenew c req
  else return ()

/-- The goroutine `renew` starts. -/
def renewal (c : CPtr) (req : Request) : Proc Unit := do
  let _ ← fetch c req
  store (.renewing c) 0

/-- The per-edge guard: a fixed window never admits more than its limit on one edge. -/
def overLimit (req : Request) (h : HPtr) : Proc Bool :=
  if fixedWindow req then do
    let consumed ← load (.consumed h)
    return decide (req.limit < consumed + req.cost)
  else return false

/-- The loop of `Allow`: fetch and retry while the held has too few tokens. -/
def refill (fuel : ℕ) (c : CPtr) (req : Request) : ℕ → HPtr → ℤ → Proc (Except LimitErr (HPtr × ℤ))
  | 0, h, left => return .ok (h, left)
  | n + 1, h, left =>
    if 0 ≤ left then return .ok (h, left)
    else do
      match ← fetch c req with
      | .error e => return .error e
      | .ok granted =>
        if granted ≤ 0 then return .ok (h, left)
        else
          let h ← loadCur c
          if ← overLimit req h then return .ok (h, left)
          else
            let nowMs ← clock c.edge
            let left ← take fuel h req.cost nowMs
            refill fuel c req n h left

/-- Is the hub's WAITING still to be waited out? -/
def waiting (c : CPtr) (nowMs : ℤ) : Proc Bool := do
  let retryAt ← load (.retryAt c)
  if 0 < retryAt then
    if nowMs < retryAt then return true
    else
      let _ ← cas (.retryAt c) retryAt 0
      return false
  else return false

def denied (c : CPtr) (req : Request) (nowMs : ℤ) (d : Decision) : Proc Decision := do
  let resetAt ← resetTime c req nowMs
  let retryAt ← load (.retryAt c)
  return { d with resetAt := resetAt, retry := if 0 < retryAt then some retryAt else d.retry }

/-- Renews at the low-water mark, or shortly before a lease that ends before its window does. -/
def renewIfLow (o : LeaseOptions) (c : CPtr) (req : Request) (h : HPtr) (nowMs left : ℤ) : Proc Unit := do
  let lastGrant ← load (.lastGrant c)
  let lowWater := truncate (max lastGrant 1 * o.lowWaterPct / 100)
  let exp ← loadExpiry h
  let reset ← load (.resetAt c)
  let endsEarly := reset ≤ 0 ∨ exp < reset
  if left ≤ lowWater ∨ (endsEarly ∧ 0 < exp ∧ exp - milliseconds o.renewBefore < nowMs) then renew c req
  else return ()

/-- The rest of `Allow` after a successful take. -/
def admitted (o : LeaseOptions) (c : CPtr) (req : Request) (h : HPtr) (nowMs left : ℤ) (d : Decision) :
    Proc Decision := do
  let _ ← add (.consumed h) req.cost
  let _ ← add (.spent c) req.cost
  renewIfLow o c req h nowMs left
  let resetAt ← resetTime c req nowMs
  let remaining ← load (.hubRemaining c)
  return { d with
    allowed := true
    window := h.win
    resetAt := resetAt
    remaining := max 0 (min req.limit (remaining + left))
    adj := some (.held h)
    maxDebt := if req.maxDebt ≤ 0 then req.cost else req.maxDebt }

/-- `Lease.Allow`, from the counter on. -/
def allowOn (o : LeaseOptions) (fuel : ℕ) (c : CPtr) (req : Request) (nowMs : ℤ) :
    Proc (Except LimitErr Decision) := do
  store (.lastSeen c) nowMs
  reset fuel c req nowMs
  let resetAt ← resetTime c req nowMs
  let d := { Decision.zero with limit := req.limit, resetAt := resetAt }
  let wait ← waiting c nowMs
  let h ← loadCur c
  if ← overLimit req h then return .ok d
  else
    let left ← take fuel h req.cost nowMs
    match ← refill fuel c req (if wait then 0 else missRetries) h left with
    | .error e => return .error e
    | .ok (h, left) =>
      if left < 0 then
        let d ← denied c req nowMs d
        return .ok d
      else
        let d ← admitted o c req h nowMs left d
        return .ok d

def allow (o : LeaseOptions) (edge fuel : ℕ) (req : Request) : Proc (Except LimitErr Decision) := do
  let req := { req with cost := max req.cost 1 }
  let nowMs ← clock edge
  let c ← counter o edge req
  allowOn o fuel c req nowMs

def leaseReturn (h : HPtr) (n : ℤ) : LeaseReturn where
  scope := h.c.req.scope
  serviceId := h.c.req.service
  apiKey := h.c.req.key
  limitId := h.c.req.limitID
  tierId := h.c.req.tier
  org := h.c.req.org
  windowId := h.win
  parentWindowId := h.parentWin
  tokens := n

/-- The loop of `giveBack`: take the balances out, keep those worth returning. -/
def collect (now : ℤ) : List CPtr → List LeaseReturn → Proc (List LeaseReturn)
  | [], acc => return acc
  | c :: cs, acc => do
    let h ← loadCur c
    let n ← swapTokens h
    let exp ← loadExpiry h
    let n := if 0 < n ∧ 0 < exp ∧ exp ≤ now then 0 else n
    if n = 0 then collect now cs acc else collect now cs (acc ++ [leaseReturn h n])

/-- The attempts to deliver a return; the context may end between two of them. -/
def deliver (msg : ℕ) : ℕ → Proc Unit
  | 0 => return ()
  | n + 1 => do
    if ← attempt msg then return () else deliver msg n

def giveBack (o : LeaseOptions) (bootID : String) (edge : ℕ) (counters : List CPtr) : Proc Unit :=
  if counters = [] then return ()
  else do
    let now ← clock edge
    let returns ← collect now counters []
    if returns = [] then return ()
    else
      let seq ← add (.returnSeq edge) 1
      let msg ← post edge
        { edgeId := o.edgeID, dedupe := bootID ++ "-" ++ toString seq, returns := returns }
      deliver msg 3

/-- The eviction of `Run`: which of the counters visited are idle. -/
def idle (cutoff : ℤ) : List CPtr → List CPtr → Proc (List CPtr)
  | [], acc => return acc
  | c :: cs, acc => do
    let seen ← load (.lastSeen c)
    if cutoff ≤ seen then idle cutoff cs acc
    else
      let renewing ← load (.renewing c)
      if renewing ≠ 0 then idle cutoff cs acc
      else
        deleteCounter c
        idle cutoff cs (acc ++ [c])

/-- One turn of `Run`. -/
def sweep (o : LeaseOptions) (bootID : String) (edge : ℕ) (cutoff : ℤ) : Proc Unit := do
  let visited ← rangeCounters edge
  let gone ← idle cutoff visited []
  giveBack o bootID edge gone

def drain (o : LeaseOptions) (bootID : String) (edge : ℕ) : Proc Unit := do
  let all ← rangeCounters edge
  giveBack o bootID edge all

end Lease

end Gate
