import Gate.Spec.Runtime

/-! The edge's upstream transport: the retry loop (`packages/edge/proxy.go`) over a pool of replicas
with passive ejection (`packages/edge/upstream.go`). What the world answers (clock readings, how an
attempt ends, whether a body can be read again, whether the wait before a retry is cut short) is an
oracle for each attempt. A replica is its place in the pool. -/

namespace Gate

open Types

/-- `target`, without its URL. Times are Unix nanoseconds. -/
structure Upstream where
  inflight : ℤ
  failures : ℤ
  openUntil : ℤ
  deriving DecidableEq, Repr

structure UpstreamPool (n : ℕ) where
  balance : String
  breaker : Option CircuitBreakerConfig
  targets : Fin n → Upstream
  next : UInt64

def leastRequests : String := "least_requests"

section

variable {n : ℕ}

namespace UpstreamPool

def ejected (p : UpstreamPool n) (now : ℤ) (t : Fin n) : Bool := now < (p.targets t).openUntil

def inflight (p : UpstreamPool n) (t : Fin n) : ℤ := (p.targets t).inflight

/-- The order in which `pick` visits the replicas. -/
def scan (n start : ℕ) : List (Fin n) := (List.finRange n).map fun i : Fin n => ⟨(start + i) % n, Nat.mod_lt _ i.pos⟩

def skips (p : UpstreamPool n) (now : ℤ) (avoid : Option (Fin n)) (t : Fin n) : Bool :=
  p.ejected now t || (decide (some t = avoid) && decide (1 < n))

/-- The loop of `pick`, and what follows it when nothing is left to visit. -/
def pickFrom (p : UpstreamPool n) (now : ℤ) (avoid : Option (Fin n)) : List (Fin n) → Option (Fin n) → Option (Fin n)
  | [], some best => some best
  | [], none => avoid.filter fun a => !p.ejected now a
  | t :: rest, best =>
    if p.skips now avoid t then p.pickFrom now avoid rest best
    else if p.balance ≠ leastRequests then some t
    else match best with
      | none => p.pickFrom now avoid rest (some t)
      | some b => p.pickFrom now avoid rest (some (if p.inflight t < p.inflight b then t else b))

def pick (p : UpstreamPool n) (now : ℤ) (avoid : Option (Fin n)) : Option (Fin n) × UpstreamPool n :=
  let next := p.next + 1
  (p.pickFrom now avoid (scan n (next.toNat % n)) none, { p with next })

def setTarget (p : UpstreamPool n) (t : Fin n) (u : Upstream) : UpstreamPool n :=
  { p with targets := Function.update p.targets t u }

/-- `report`; `now` is read when the replica is ejected. -/
def report (p : UpstreamPool n) (t : Fin n) (ok : Bool) (now : ℤ) : UpstreamPool n :=
  match p.breaker with
  | none => p
  | some b =>
    let u := p.targets t
    if ok then p.setTarget t { u with failures := 0 }
    else if b.failures ≤ u.failures + 1 then p.setTarget t { u with failures := u.failures + 1, openUntil := now + b.cooldown }
    else p.setTarget t { u with failures := u.failures + 1 }

/-- `inflight.Add`. -/
def addInflight (p : UpstreamPool n) (t : Fin n) (d : ℤ) : UpstreamPool n :=
  let u := p.targets t
  p.setTarget t { u with inflight := u.inflight + d }

end UpstreamPool

structure UpstreamRequest where
  method : String
  hasBody : Bool
  hasGetBody : Bool
  deriving DecidableEq, Repr

/-- What attempt `i` meets with. -/
structure AttemptOracle where
  /-- the clock at `pick` -/
  pickNow : ℤ
  /-- the error of `GetBody` -/
  getBody : Option String
  /-- the error or the status of the attempt -/
  outcome : Except String ℤ
  /-- the clock at `report` -/
  reportNow : ℤ
  /-- the wait after the attempt was not cut short -/
  slept : Bool

inductive RetryError where
  | circuitOpen
  | getBody (e : String)
  | attempt (e : String)
  | retryableStatus (code : ℤ)
  | context
  deriving DecidableEq, Repr

def retryable (method : String) (p : UpstreamFailurePolicy) : Bool :=
  method = "GET" || method = "HEAD" || method = "OPTIONS" || method = "PUT" || method = "DELETE" || p.retryNonIdempotentMethods

def retryStatus (code : ℤ) (p : UpstreamFailurePolicy) : Bool := p.retryOnStatuses.contains code

def statusSwitchingProtocols : ℤ := 101

/-- The body of a first attempt is the request's own; a retry needs a fresh one. -/
def newAttempt (req : UpstreamRequest) (i : ℕ) (o : AttemptOracle) : Except RetryError Unit :=
  if 0 < i ∧ req.hasGetBody then
    match o.getBody with
    | some e => .error (.getBody e)
    | none => .ok ()
  else .ok ()

/-- A call of `pick` for a retry: the pool and the clock it saw, the replica of the attempt before, and
the replica it picked. -/
structure Repick (n : ℕ) where
  pool : UpstreamPool n
  now : ℤ
  previous : Fin n
  picked : Option (Fin n)

/-- The variables of the loop, and the attempts and picks so far. -/
structure TripState (n : ℕ) where
  pool : UpstreamPool n
  target : Fin n
  attempts : List (Fin n)
  picks : List (Repick n)

/-- How a turn of the loop ends: with a response (and the replica that its body keeps busy), with an
error that is returned, or with one that may be retried. -/
inductive TurnEnd (n : ℕ) where
  | response (code : ℤ) (busy : Option (Fin n))
  | fails (e : RetryError)
  | retries (e : RetryError)

/-- A turn from `newAttempt` on. -/
def TripState.attempt (s : TripState n) (p : UpstreamFailurePolicy) (req : UpstreamRequest) (i : ℕ) (o : AttemptOracle) :
    TripState n × TurnEnd n :=
  match newAttempt req i o with
  | .error e => (s, .fails e)
  | .ok () =>
    let s := { s with pool := s.pool.addInflight s.target 1, attempts := s.attempts ++ [s.target] }
    match o.outcome with
    | .error e =>
      let s := { s with pool := s.pool.report s.target false o.reportNow }
      ({ s with pool := s.pool.addInflight s.target (-1) }, .retries (.attempt e))
    | .ok code =>
      let s := { s with pool := s.pool.report s.target (code < 500) o.reportNow }
      if retryStatus code p then ({ s with pool := s.pool.addInflight s.target (-1) }, .retries (.retryableStatus code))
      -- an upgraded body must stay writable, so it does not tell when it is closed
      else if code = statusSwitchingProtocols then ({ s with pool := s.pool.addInflight s.target (-1) }, .response code none)
      else (s, .response code (some s.target))

/-- A turn of the loop. -/
def TripState.turn (s : TripState n) (p : UpstreamFailurePolicy) (req : UpstreamRequest) (i : ℕ) (o : AttemptOracle) :
    TripState n × TurnEnd n :=
  if i = 0 then s.attempt p req i o
  else
    let (picked, pool) := s.pool.pick o.pickNow (some s.target)
    let picks := s.picks ++ [⟨s.pool, o.pickNow, s.target, picked⟩]
    match picked with
    | none => ({ s with pool, picks }, .fails .circuitOpen)
    | some target => TripState.attempt { s with pool, picks, target } p req i o

/-- `onClose`. -/
structure ClosingBody (n : ℕ) where
  target : Fin n
  closed : Bool

/-- What is left when `RoundTrip` has returned. -/
structure Trip (n : ℕ) where
  pool : UpstreamPool n
  attempts : List (Fin n)
  picks : List (Repick n)
  result : Except RetryError ℤ
  body : Option (ClosingBody n)

def TripState.finish (s : TripState n) (result : Except RetryError ℤ) (busy : Option (Fin n)) : Trip n :=
  ⟨s.pool, s.attempts, s.picks, result, busy.map fun t => ⟨t, false⟩⟩

/-- The loop from attempt `i` on, with `more` attempts to come after it at most. -/
def tripLoop (p : UpstreamFailurePolicy) (req : UpstreamRequest) (oracle : ℕ → AttemptOracle) : ℕ → ℕ → TripState n → Trip n
  | 0, i, s =>
    match s.turn p req i (oracle i) with
    | (s, .response code busy) => s.finish (.ok code) busy
    | (s, .fails e) => s.finish (.error e) none
    | (s, .retries e) => s.finish (.error e) none
  | more + 1, i, s =>
    match s.turn p req i (oracle i) with
    | (s, .response code busy) => s.finish (.ok code) busy
    | (s, .fails e) => s.finish (.error e) none
    | (s, .retries _) =>
      if (oracle i).slept then tripLoop p req oracle more (i + 1) s else s.finish (.error .context) none

/-- The retries that the policy and the request allow. -/
def allowedRetries (p : UpstreamFailurePolicy) (req : UpstreamRequest) : ℕ :=
  if retryable req.method p ∧ (!req.hasBody || req.hasGetBody) then p.maxRetries.toNat else 0

def retryTransport.roundTrip (fc : FailureConfig) (req : UpstreamRequest) (oracle : ℕ → AttemptOracle) (pool : UpstreamPool n) (target : Fin n) : Trip n :=
  let p := fc.effectiveUpstreamPolicy
  tripLoop p req oracle (allowedRetries p req) 0 ⟨pool, target, [], []⟩

/-- `onClose.Close`: only the first one counts. -/
def Trip.close (t : Trip n) : Trip n :=
  match t.body with
  | some b => if b.closed then t else { t with pool := t.pool.addInflight b.target (-1), body := some { b with closed := true } }
  | none => t

/-- A retry goes to a replica that is not ejected, and away from the previous one if another is not
ejected; in least-requests mode no such replica is less busy than it. Only if all are ejected there is
none. -/
def Repick.Moves (r : Repick n) : Prop :=
  match r.picked with
  | none => ∀ t, r.pool.ejected r.now t = true
  | some t => r.pool.ejected r.now t = false ∧
      ∀ u, u ≠ r.previous → r.pool.ejected r.now u = false →
        t ≠ r.previous ∧ (r.pool.balance = leastRequests → r.pool.inflight t ≤ r.pool.inflight u)

end

end Gate
