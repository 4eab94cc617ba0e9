import Gate.Spec.Decide
import Gate.Spec.Region
import Gate.Spec.Mem

/-! The hub's lease server (`packages/hub/quota_lease_server.go`): it decides which quota a
request draws on, asks the ledger, and turns the answer into a reply. What it reads from
elsewhere (key records, the peer certificate, hashes, the key pattern) is a parameter. -/

namespace Gate

structure QuotaLeaseRequest where
  scope : String
  serviceId : String
  apiKey : String
  tierId : String
  limitId : String
  org : String
  requestedTokens : ℤ
  edgeId : String
  observedRate : ℚ
  deriving DecidableEq, Repr

structure QuotaLeaseResponse where
  grantedTokens : ℤ
  leaseTtlSeconds : ℤ
  remainingGlobal : ℤ
  windowId : ℤ
  expiresInMs : ℤ
  resetInMs : ℤ
  activeEdges : ℤ
  parentWindowId : ℤ
  limit : ℤ
  waitingForCapacity : Bool
  retryAfterMs : ℤ
  deriving DecidableEq, Repr

structure LeaseReturn where
  scope : String
  serviceId : String
  apiKey : String
  limitId : String
  tierId : String
  org : String
  windowId : ℤ
  parentWindowId : ℤ
  tokens : ℤ
  deriving DecidableEq, Repr

structure ReturnLeasesRequest where
  edgeId : String
  dedupe : String
  returns : List LeaseReturn
  deriving DecidableEq, Repr

/-- The gRPC codes the hub answers with. -/
inductive Code where
  | invalidArgument
  | notFound
  | permissionDenied
  | failedPrecondition
  | unavailable
  | unknown
  deriving DecidableEq, Repr

def QuotaLeaseRequest.validate (r : QuotaLeaseRequest) : Bool :=
  r.scope ≠ "" && r.serviceId ≠ "" && r.apiKey ≠ "" && decide (0 < r.requestedTokens)

/-- What the hub reads besides its config. -/
structure HubEnv where
  /-- `regexp.MatchString` -/
  matchPattern : String → String → Bool
  /-- the tier store; `none` is a failed lookup -/
  tier : String → String → Option String
  owner : String → String → Option String
  /-- SHA-256, shortened to a ledger-safe identifier -/
  orgID : String → String
  score : String → String → ℕ
  /-- this hub's region, in a multi-region deployment -/
  region : Option String

def validKey (env : HubEnv) (cfg : GatewayConfig) (apiKey : String) : Bool :=
  env.matchPattern (if cfg.apiKeyPattern = "" then defaultKeyPattern else cfg.apiKeyPattern) apiKey

/-- `ledger.BatchItem`. -/
structure Item where
  ref : Ref
  spec : Spec
  args : GrantArgs
  deriving DecidableEq, Repr

def noArgs : GrantArgs := ⟨0, "", 0, 0, 0, 0, none, false, 0⟩

def leaseArgs (p : LeasePolicy) : GrantArgs :=
  if p.adaptive then
    { noArgs with horizon := p.effectiveHorizon, minGrant := max p.min defaultLeaseMin, maxGrant := p.max }
  else noArgs

def resolveDescriptor (cfg : GatewayConfig) (domain subject limitID : String) : Except Code Item :=
  match Decide.find cfg domain limitID with
  | none => .error .notFound
  | some l => .ok {
      ref := ⟨Decide.scope, domain, limitID, subject, ""⟩
      spec := ⟨l.algorithm, l.quota, l.window, l.rate⟩
      args := { noArgs with horizon := defaultLeaseHorizon, minGrant := defaultLeaseMin } }

def resolveNamed (p : PrefixConfig) (svc : ServiceConfig) (ref : Ref) (limitID : String) :
    Except Code Item :=
  match findLimit svc limitID with
  | none => .error .notFound
  | some l => .ok {
      ref := ref
      spec := ⟨l.algorithm, l.quota, if l.window ≤ 0 then p.quotaPeriod else l.window, l.rate⟩
      args := leaseArgs svc.lease }

/-- The caller's tier and org: an API key's come from the hub's records, those of a JWT or
anonymous caller from the edge that resolved them. -/
def callerOf (env : HubEnv) (svc : ServiceConfig) (scope subject tierID org : String) :
    Except Code (String × String) :=
  if svc.authType = "" ∨ svc.authType = "api_key" then
    match env.tier scope subject with
    | none => .error .unavailable
    | some tier =>
      if svc.org.isSome then
        match env.owner scope subject with
        | none => .error .unavailable
        | some owner => .ok (tier, owner)
      else .ok (tier, "")
  else .ok (tierID, org)

/-- Puts the org's budget around a tier's quota. -/
def withOrg (env : HubEnv) (p : PrefixConfig) (svc : ServiceConfig) (org : String) (it : Item) : Item :=
  match svc.org with
  | none => it
  | some o =>
    if org = "" then it
    else { it with
      ref := { it.ref with parent := env.orgID org }
      args := { it.args with parent := some {
        algo := .fixedWindow, limit := o.quota,
        window := if o.window ≤ 0 then p.quotaPeriod else o.window, rate := 0 } } }

/-- Makes a tier's quota this region's allocation of a global one. -/
def withRegion (env : HubEnv) (svc : ServiceConfig) (subject : String) (it : Item) : Item :=
  match svc.global, env.region with
  | some g, some name => { it with args := { it.args with
      regional := true, allocBase := regionBase env.score it.spec.limit g.floors name subject } }
  | _, _ => it

def resolveTier (env : HubEnv) (p : PrefixConfig) (svc : ServiceConfig) (ref : Ref)
    (tierID org : String) : Except Code Item := do
  let (tierID, org) ← callerOf env svc ref.scope ref.subject tierID org
  match findTier svc tierID with
  | none => throw .permissionDenied
  | some t =>
    return withOrg env p svc org (withRegion env svc ref.subject {
      ref := ref
      spec := ⟨t.algorithm, t.quota, p.quotaPeriod, t.rate⟩
      args := leaseArgs svc.lease })

/-- `QuotaLeaseServer.resolve`. -/
def resolve (env : HubEnv) (cfg : GatewayConfig) (scope service subject limitID tierID org : String) :
    Except Code Item :=
  if !validKey env cfg subject then .error .invalidArgument
  else if scope = Decide.scope then resolveDescriptor cfg service subject limitID
  else match cfg.findService scope service with
  | none => .error .notFound
  | some (p, svc) =>
    let ref : Ref := ⟨scope, service, limitID, subject, ""⟩
    if limitID ≠ "" then resolveNamed p svc ref limitID else resolveTier env p svc ref tierID org

/-- Scopes an edge's own ID by the common name of its certificate. -/
def edgeIdentity (cn edgeID : String) : String :=
  if edgeID = "" then "" else if cn ≠ "" then cn ++ "/" ++ edgeID else edgeID

def resolveLease (env : HubEnv) (cfg : GatewayConfig) (cn : String) (r : QuotaLeaseRequest) :
    Except Code Item :=
  if !r.validate then .error .invalidArgument
  else do
    let it ← resolve env cfg r.scope r.serviceId r.apiKey r.limitId r.tierId r.org
    return { it with args := { it.args with
      requested := r.requestedTokens, edgeID := edgeIdentity cn r.edgeId, observedRate := r.observedRate } }

def grantResponse (limit : ℤ) (g : Grant) : QuotaLeaseResponse where
  grantedTokens := g.granted
  leaseTtlSeconds := (g.expiresIn + second - 1).tdiv second
  remainingGlobal := g.remaining
  windowId := g.windowID
  expiresInMs := milliseconds g.expiresIn
  resetInMs := milliseconds g.resetIn
  activeEdges := g.activeEdges
  parentWindowId := g.parentWindowID
  limit := limit
  waitingForCapacity := g.granted = 0
  retryAfterMs := if g.granted = 0 then max (milliseconds g.retryAfter) 1 else 0

/-- `RequestQuotaLease`. A ledger error carries no status, so the edge sees an unknown code. -/
def requestQuotaLease (env : HubEnv) (cfg : GatewayConfig) (cn : String) (m : Mem) (ord : RangeOrder)
    (now : ℤ) (r : QuotaLeaseRequest) : Except Code QuotaLeaseResponse × Mem :=
  match resolveLease env cfg cn r with
  | .error code => (.error code, m)
  | .ok it =>
    match m.grant ord now it.ref it.spec it.args with
    | (.error _, m) => (.error .unknown, m)
    | (.ok g, m) => (.ok (grantResponse it.spec.limit g), m)

/-- An item of `ReturnLeases`, resolved; a limit or key that is gone has nothing to credit. -/
def resolveReturn (env : HubEnv) (cfg : GatewayConfig) (r : LeaseReturn) : Option Ret :=
  match resolve env cfg r.scope r.serviceId r.apiKey r.limitId r.tierId r.org with
  | .error _ => none
  | .ok it => some ⟨it.ref, it.spec, it.args.parent, r.windowId, r.parentWindowId, r.tokens⟩

def returnDedupe (cn : String) (r : ReturnLeasesRequest) : String :=
  if r.dedupe = "" then "" else edgeIdentity cn r.edgeId ++ ":" ++ r.dedupe

def returnLeases (env : HubEnv) (cfg : GatewayConfig) (cn : String) (m : Mem) (now : ℤ)
    (r : ReturnLeasesRequest) : Except Err Unit × Mem :=
  m.ret now (returnDedupe cn r) (r.returns.filterMap (resolveReturn env cfg))

end Gate
