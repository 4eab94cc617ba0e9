import Gate.Spec.Limiter
import Gate.Spec.Transfers

/-! Batched lease requests (`RequestQuotaLeases` in `packages/hub/quota_lease_server.go`, with
`ledger.GrantAll`) beside single ones. The ledger is any that grants one item at a time; the hub
also notes the regional quotas that ran out. -/

namespace Gate

/-- Why a ledger does not answer with a grant: the spec cannot be enforced, or anything else
(it cannot be reached, its reply makes no sense). -/
inductive LedgerErr where
  | badSpec
  | other
  deriving DecidableEq, Repr

/-- `Ledger.Grant` at one instant. `ErrBadSpec` is what `prepare` refuses. -/
structure Granter (σ : Type) where
  grant : σ → Item → Except LedgerErr Grant × σ
  badSpec : ∀ s it, (grant s it).1 = .error .badSpec → ∀ inp, prepare it.ref it.spec it.args ≠ .ok inp

section
variable {σ : Type}

/-- `GrantAll`, one by one. -/
def Granter.grantAll (G : Granter σ) : σ → List Item → List (Except LedgerErr Grant) × σ
  | s, [] => ([], s)
  | s, it :: its =>
    let (r, s) := G.grant s it
    let (rs, s) := G.grantAll s its
    (r :: rs, s)

/-- A hub's ledger, and what its region ran out of (`Node.needs`). -/
structure LeaseServer (σ : Type) where
  ledger : σ
  needs : String → Option Need

/-- `noteStarved`, with `Node.Starved`. -/
def noteStarved (env : HubEnv) (r : QuotaLeaseRequest) (it : Item) (g : Grant) (needs : String → Option Need) :
    String → Option Need :=
  if env.region = none ∨ it.args.regional = false ∨ 0 < g.granted then needs
  else Function.update needs (it.ref.key it.spec.algo)
    (some ⟨it.ref, it.spec, g.windowID, ⟨r.scope, r.serviceId, r.apiKey, r.limitId, r.tierId, 0, 0, ""⟩⟩)

variable (G : Granter σ) (env : HubEnv) (cfg : GatewayConfig) (cn : String)

/-- `RequestQuotaLease`; a ledger error has no status and reaches the edge as an unknown one. -/
def LeaseServer.requestQuotaLease (s : LeaseServer σ) (r : QuotaLeaseRequest) :
    Except Code QuotaLeaseResponse × LeaseServer σ :=
  match resolveLease env cfg cn r with
  | .error code => (.error code, s)
  | .ok it =>
    match G.grant s.ledger it with
    | (.error _, ledger) => (.error .unknown, { s with ledger := ledger })
    | (.ok g, ledger) => (.ok (grantResponse it.spec.limit g), ⟨ledger, noteStarved env r it g s.needs⟩)

/-- Single calls, one after the other. -/
def LeaseServer.requestEach : LeaseServer σ → List QuotaLeaseRequest → List (Except Code QuotaLeaseResponse) × LeaseServer σ
  | s, [] => ([], s)
  | s, r :: rs =>
    let (x, s) := s.requestQuotaLease G env cfg cn r
    let (xs, s) := s.requestEach rs
    (x :: xs, s)

/-- `out.Results`: a slot for each request, to be filled in. -/
abbrev Results := List (Option (Except Code QuotaLeaseResponse))

/-- A request that was resolved: its place in the batch, and its item. -/
structure BatchedLease where
  index : ℕ
  request : QuotaLeaseRequest
  item : Item

/-- One turn of the first loop: a request that does not resolve is answered, the others are collected. -/
def collectLease (acc : Results × List BatchedLease) (x : QuotaLeaseRequest × ℕ) : Results × List BatchedLease :=
  match resolveLease env cfg cn x.1 with
  | .error code => (acc.1.set x.2 (some (.error code)), acc.2)
  | .ok it => (acc.1, acc.2 ++ [⟨x.2, x.1, it⟩])

/-- `errorResult`, of a ledger error. -/
def errorCode : LedgerErr → Code
  | .badSpec => .failedPrecondition
  | .other => .unavailable

/-- One turn of the second loop. -/
def answerLease (acc : Results × (String → Option Need)) (x : BatchedLease × Except LedgerErr Grant) :
    Results × (String → Option Need) :=
  match x.2 with
  | .error e => (acc.1.set x.1.index (some (.error (errorCode e))), acc.2)
  | .ok g => (acc.1.set x.1.index (some (.ok (grantResponse x.1.item.spec.limit g))),
      noteStarved env x.1.request x.1.item g acc.2)

def LeaseServer.requestQuotaLeases (s : LeaseServer σ) (rs : List QuotaLeaseRequest) : Results × LeaseServer σ :=
  let (out, leases) := rs.zipIdx.foldl (collectLease env cfg cn) (List.replicate rs.length none, [])
  let (grants, ledger) := G.grantAll s.ledger (leases.map BatchedLease.item)
  let (out, needs) := (leases.zip grants).foldl (answerLease env) (out, s.needs)
  (out, ⟨ledger, needs⟩)

end

/-- What the limiter makes of an answer: the response, or the class of the error. -/
def classOf (x : Except Code QuotaLeaseResponse) : Except LimitErr QuotaLeaseResponse := x.mapError classify

/-- The in-process ledger at one instant; the `k`-th grant visits the active edges in the `k`-th order. -/
def Mem.granter (ords : ℕ → RangeOrder) (now : ℤ) : Granter (ℕ × Mem) where
  grant s it :=
    match s.2.grant (ords s.1) now it.ref it.spec it.args with
    | (.error .badSpec, m) => (.error .badSpec, (s.1 + 1, m))
    | (.ok g, m) => (.ok g, (s.1 + 1, m))
  badSpec s it h inp hp := by
    simp [Mem.grant, hp] at h

end Gate
