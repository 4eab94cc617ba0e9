import Gate.Lib.Run
import Gate.Spec.Hub

/-! The edge's batcher (`packages/limiter/batch.go`): concurrent lease requests are coalesced into
batches. A section under the lock is one step, and so is the end of an exchange with the hub, which
hands every call of the batch its result. -/

namespace Gate

def batchMaxItems : ℕ := 256

def batchMaxInflight : ℕ := 2

namespace codes

def unimplemented : ℤ := 12

def internal : ℤ := 13

end codes

structure RpcError where
  code : ℤ
  message : String
  deriving DecidableEq, Repr

/-- What the hub answers to one request of a batch. -/
structure QuotaLeaseResult where
  response : Option QuotaLeaseResponse
  code : ℤ
  message : String
  deriving DecidableEq, Repr

/-- `batchCall.resp` and `batchCall.err`. -/
abbrev CallResult := Except RpcError (Option QuotaLeaseResponse)

/-- What the hub answers during one exchange: to the batch, and to its requests one by one. -/
structure HubReply where
  out : Except RpcError (List QuotaLeaseResult)
  single : ℕ → CallResult

/-- The hub predates batching. -/
def HubReply.isUnimplemented (r : HubReply) : Bool :=
  match r.out with
  | .error e => e.code = codes.unimplemented
  | .ok _ => false

/-- What `exchange` writes into the call at index `i` of the batch. -/
def HubReply.result (r : HubReply) (i : ℕ) : CallResult :=
  if r.isUnimplemented then r.single i
  else match r.out with
    | .error e => .error e
    | .ok results =>
      match results[i]? with
      | none => .error ⟨codes.internal, "hub answered fewer leases than requested"⟩
      | some x => if x.code ≠ 0 then .error ⟨x.code, x.message⟩ else .ok x.response

/-- `id` numbers the calls as they arrive. -/
structure BatchCall where
  id : ℕ
  req : QuotaLeaseRequest
  deriving DecidableEq, Repr

/-- A caller of `RequestQuotaLease` at its `select`. -/
inductive CallerState where
  | waiting
  | returned (o : CallResult)
  | left

/-- A goroutine in `send`: the batch it exchanges, and whether the exchange is over. -/
structure Sender where
  number : ℕ
  batch : List BatchCall
  answered : Bool

structure Batcher where
  pending : List BatchCall
  inflight : ℕ
  unbatched : Bool
  sending : List Sender
  callers : ℕ → CallerState
  -- the history: arrivals, batches as they were started, what the hub replied to each, and the
  -- `done` channels that were closed, with what their caller finds
  arrived : List BatchCall
  started : List (List BatchCall)
  replies : ℕ → Option HubReply
  closed : List (ℕ × CallResult)

def newBatcher : Batcher where
  pending := []
  inflight := 0
  unbatched := false
  sending := []
  callers _ := .waiting
  arrived := []
  started := []
  replies _ := none
  closed := []

namespace Batcher

def takeLocked (b : Batcher) : Option (List BatchCall) × Batcher :=
  if b.pending.length = 0 ∨ batchMaxInflight ≤ b.inflight then (none, b)
  else
    let n := min b.pending.length batchMaxItems
    let batch := b.pending.take n
    (some batch, { b with
      pending := b.pending.drop n
      inflight := b.inflight + 1
      started := b.started ++ [batch] })

/-- `takeLocked`, and a goroutine to send the batch it returns. -/
def launch (b : Batcher) : Batcher :=
  match b.takeLocked with
  | (none, b) => b
  | (some batch, b) => { b with sending := b.sending ++ [⟨b.started.length - 1, batch, false⟩] }

def enqueue (b : Batcher) (req : QuotaLeaseRequest) : Batcher :=
  let c : BatchCall := ⟨b.arrived.length, req⟩
  { b with pending := b.pending ++ [c], arrived := b.arrived ++ [c] }

/-- `RequestQuotaLease` up to its `select`. Once the hub is known not to batch, the call passes by. -/
def requestQuotaLease (b : Batcher) (req : QuotaLeaseRequest) : Batcher :=
  if b.unbatched then b else (b.enqueue req).launch

/-- The end of `exchange`. -/
def exchange (b : Batcher) (k : ℕ) (s : Sender) (r : HubReply) : Batcher :=
  { b with
    unbatched := b.unbatched || r.isUnimplemented
    sending := b.sending.set k { s with answered := true }
    replies := Function.update b.replies s.number (some r)
    closed := b.closed ++ s.batch.mapIdx fun i c => (c.id, r.result i) }

/-- The goroutine at `k` gives its slot back. -/
def release (b : Batcher) (k : ℕ) : Batcher :=
  { b with inflight := b.inflight - 1, sending := b.sending.eraseIdx k }

end Batcher

inductive BatcherAct where
  /-- `RequestQuotaLease` is called -/
  | call (req : QuotaLeaseRequest)
  /-- the hub replies to the `k`-th batch in flight -/
  | reply (k : ℕ) (r : HubReply)
  /-- the lock section of `send` after an exchange -/
  | finish (k : ℕ)
  /-- a caller finds its `done` closed -/
  | receive (id : ℕ)
  /-- a caller's context ends -/
  | leave (id : ℕ)

namespace Batcher

/-- What the caller finds once its `done` is closed. -/
def resultFor (b : Batcher) (id : ℕ) : Option CallResult := (b.closed.find? fun x => x.1 = id).map Prod.snd

def step (b : Batcher) : BatcherAct → Option Batcher
  | .call req => some (b.requestQuotaLease req)
  | .reply k r =>
    match b.sending[k]? with
    | some s => if s.answered then none else some (b.exchange k s r)
    | none => none
  | .finish k =>
    match b.sending[k]? with
    | some s => if s.answered then some (b.release k).launch else none
    | none => none
  | .receive id =>
    match b.callers id, b.resultFor id with
    | .waiting, some o => some { b with callers := Function.update b.callers id (.returned o) }
    | _, _ => none
  | .leave id =>
    match b.callers id with
    | .waiting => if id < b.arrived.length then some { b with callers := Function.update b.callers id .left } else none
    | _ => none

end Batcher

/-- The call at place `i` of batch `j`. -/
def Batcher.placed (b : Batcher) (j i : ℕ) : Option BatchCall := (b.started[j]?).bind fun x => x[i]?

end Gate
