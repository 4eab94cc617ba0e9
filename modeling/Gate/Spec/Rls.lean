import Gate.Spec.Checks
import Gate.Spec.Reserve

/-! The decision service (`packages/decide/service.go`) and Envoy's rate-limit API over it
(`packages/rls/server.go`). A reservation token is what it carries: its encoding and signature are
left out. Shares of a limit are exact. -/

namespace Gate

namespace Decide

structure Status where
  limitID : String
  matched : Bool
  allowed : Bool
  shadow : Bool
  shadowDenied : Bool
  limit : ℤ
  remaining : ℤ
  /-- in milliseconds -/
  resetIn : ℤ
  /-- the hub window charged -/
  window : ℤ
  spec : LimitSpec
  deriving DecidableEq, Repr

/-- The zero `Status`. -/
def Status.zero : Status := ⟨"", false, false, false, false, 0, 0, 0, 0, ⟨"", .unset, 0, 0, 0, false⟩⟩

structure ReservationItem where
  limit : String
  subject : String
  window : ℤ
  estimate : ℤ
  deriving DecidableEq, Repr

/-- `reservation`: what a reservation token carries. -/
structure ReservationToken where
  domain : String
  items : List ReservationItem
  /-- unix seconds -/
  exp : ℤ
  nonce : String
  deriving DecidableEq, Repr

structure Outcome where
  allowed : Bool
  statuses : List Status
  /-- in milliseconds -/
  retryAfter : ℤ
  reservation : Option ReservationToken
  /-- the descriptor whose check denied, by `Reserve`'s `BindingIndex`; `check` has it at hand and
  does not pass it on -/
  denier : Option ℕ
  deriving DecidableEq, Repr

/-- `reservationTTL`, in milliseconds. -/
def reservationTTL : ℤ := 600000

/-- `time.Until` of the zero time, in milliseconds. -/
def minDuration : ℤ := -9223372036854

def timeUntil (now : ℤ) (t : Option ℤ) : ℤ :=
  match t with
  | some t => t - now
  | none => minDuration

/-- A descriptor's status before its check: one without a limit is allowed. -/
def Status.start : Option Match → Status
  | none => { Status.zero with allowed := true }
  | some m => { Status.zero with limitID := m.limitID, matched := true, shadow := m.spec.shadow, spec := m.spec }

section Check

variable (digest : String → String) (cfg : GatewayConfig) (domain : String)

/-- The descriptor that each check is of. -/
def index (descs : List Descriptor) : List ℕ :=
  descs.zipIdx.filterMap fun x => (resolve digest cfg domain x.1.entries).map fun _ => x.2

/-- `ResetIn` stays zero if there is no reset. -/
def resetIn (edge : ℕ) (r : Decision) : Proc ℤ :=
  match r.resetAt with
  | none => return 0
  | some t => do
    let now ← clock edge
    return max (t - now) 0

/-- The loop over the results. -/
def report (edge : ℕ) : List ℕ → List Request → List Decision → List Status → Proc (List Status)
  | i :: index, req :: checks, r :: results, sts => do
    let resetIn ← resetIn edge r
    report edge index checks results (sts.modify i fun st =>
      { st with allowed := r.allowed || req.shadow, limit := r.limit, remaining := r.remaining, window := r.window,
                resetIn := resetIn })
  | _, _, _, sts => return sts

/-- The loop over the shadow checks that would have denied. -/
def markShadow (index : List ℕ) (sts : List Status) (j : ℕ) : List Status :=
  match index[j]? with
  | some i => sts.modify i fun st => { st with shadowDenied := true }
  | none => sts

def signItem (x : Request × Decision) : Option ReservationItem :=
  if x.1.shadow || !x.2.allowed then none
  else some ⟨x.1.limitID, x.1.key, x.2.window, x.1.cost⟩

/-- What `sign` signs. -/
def sign (edge : ℕ) (nonce : String) (checks : List Request) (res : Reservation) : Proc ReservationToken := do
  let now ← clock edge
  return ⟨domain, (checks.zip res.results).filterMap signItem, (now + reservationTTL) / 1000, nonce⟩

/-- `Decider.check`, with any limiter; `nonce` is drawn if the request is to be reserved. -/
def check (allow : Request → Proc (Except LimitErr Decision)) (fuel edge : ℕ) (nonce : String) (descs : List Descriptor)
    (reserve : Bool) : Proc (Except LimitErr Outcome) := do
  let checks := checks digest cfg domain descs
  let index := index digest cfg domain descs
  let (res, err) ← Gate.reserve allow fuel checks
  match err with
  | some e => return .error e
  | none =>
    let sts ← report edge index checks res.results (descs.map fun d => .start (resolve digest cfg domain d.entries))
    let sts := res.shadowDenied.foldl (markShadow index) sts
    if !res.allowed ∧ 0 ≤ res.bindingIndex then
      let now ← clock edge
      let denier := index[res.bindingIndex.toNat]?
      return .ok {
        allowed := res.allowed
        statuses := match denier with
          | some i => sts.modify i fun st => { st with allowed := false }
          | none => sts
        retryAfter := timeUntil now res.binding.retryAt
        reservation := none
        denier := denier }
    else if reserve ∧ res.allowed ∧ checks ≠ [] then
      let token ← sign domain edge nonce checks res
      return .ok ⟨res.allowed, sts, 0, some token, none⟩
    else return .ok ⟨res.allowed, sts, 0, none, none⟩

end Check

end Decide

namespace Rls

open Decide

inductive Code where
  | ok
  | overLimit
  deriving DecidableEq, Repr

inductive TimeUnit where
  | second
  | minute
  | hour
  | day
  deriving DecidableEq, Repr

structure RateLimit where
  name : String
  requestsPerUnit : ℤ
  unit : TimeUnit
  deriving DecidableEq, Repr

structure DescriptorStatus where
  code : Code
  currentLimit : Option RateLimit
  limitRemaining : ℤ
  durationUntilReset : Option ℤ
  deriving DecidableEq, Repr

structure RateLimitResponse where
  overallCode : Code
  statuses : List DescriptorStatus
  responseHeadersToAdd : List (String × String)
  deriving DecidableEq, Repr

structure RateLimitDescriptor where
  entries : List Entry
  /-- overrides the request's, if it is set -/
  hitsAddend : Option ℕ

structure RateLimitRequest where
  domain : String
  descriptors : List RateLimitDescriptor
  hitsAddend : ℕ

/-- A conversion to `int64`. -/
def int64 (n : ℕ) : ℤ := Int.bmod n (2 ^ 64)

/-- A conversion to `uint32`. -/
def uint32 (n : ℤ) : ℤ := n % 2 ^ 32

def descriptorOf (req : RateLimitRequest) (d : RateLimitDescriptor) : Descriptor where
  entries := d.entries
  cost := max (int64 (d.hitsAddend.getD req.hitsAddend)) 1

def share (st : Status) : ℚ := if st.limit ≤ 0 then 1 else (st.remaining : ℚ) / st.limit

/-- Envoy's units, the largest first. -/
def units : List (ℤ × TimeUnit) :=
  [(86400 * second, .day), (3600 * second, .hour), (60 * second, .minute), (second, .second)]

def currentLimit (st : Status) : RateLimit :=
  if st.spec.algorithm = .tokenBucket then ⟨st.limitID, uint32 ⌈st.spec.rate⌉, .second⟩
  else
    let w := max st.spec.window second
    match units.find? fun u => u.1 ≤ w with
    | some u => ⟨st.limitID, uint32 ⌈(st.spec.quota * u.1 : ℚ) / w⌉, u.2⟩
    | none => ⟨st.limitID, 0, .second⟩

def descriptorStatus (st : Status) : DescriptorStatus where
  code := if st.allowed then .ok else .overLimit
  currentLimit := if st.matched then some (currentLimit st) else none
  limitRemaining := if st.matched then min (max st.remaining 0) (2 ^ 32 - 1) else 0
  durationUntilReset := if st.matched then some st.resetIn else none

/-- One turn of the loop that picks the descriptor to report: the denying one, else the one
closest to its limit. -/
def bindStatus (binding : Option Status) (st : Status) : Option Status :=
  if !st.matched || st.shadow then binding
  else match binding with
    | none => some st
    | some b =>
      if !st.allowed && b.allowed then some st
      else if st.allowed = b.allowed ∧ share st < share b then some st
      else some b

/-- Whole seconds, rounded up. -/
def ceilSeconds (ms : ℤ) : ℤ := ⌈(ms : ℚ) / 1000⌉

/-- The IETF RateLimit fields of a descriptor. -/
def rateLimitFields (st : Status) : List (String × String) :=
  [("RateLimit-Limit", toString st.limit), ("RateLimit-Remaining", toString (max st.remaining 0)),
   ("RateLimit-Reset", toString (ceilSeconds st.resetIn))]

def headers (st : Status) (out : Outcome) : List (String × String) :=
  rateLimitFields st ++
    if out.allowed then [] else [("Retry-After", toString (max (ceilSeconds out.retryAfter) 1))]

/-- The response to an outcome. -/
def respond (out : Outcome) : RateLimitResponse where
  overallCode := if out.allowed then .ok else .overLimit
  statuses := out.statuses.map descriptorStatus
  responseHeadersToAdd := match out.statuses.foldl bindStatus none with
    | some b => headers b out
    | none => []

inductive RlsErr where
  | unavailable
  | invalidArgument (e : LimitErr)
  deriving DecidableEq, Repr

/-- `ShouldRateLimit`: a check that does not wait and reserves nothing. -/
def shouldRateLimit (digest : String → String) (cfg : GatewayConfig) (allow : Request → Proc (Except LimitErr Decision))
    (fuel edge : ℕ) (req : RateLimitRequest) : Proc (Except RlsErr RateLimitResponse) := do
  match ← check digest cfg req.domain allow fuel edge "" (req.descriptors.map (descriptorOf req)) false with
  | .error .unavailable => return .error .unavailable
  | .error e => return .error (.invalidArgument e)
  | .ok out => return .ok (respond out)

end Rls

end Gate
