import Gate.Spec.Limiter
import Gate.Spec.Runtime

/-! The limits a request is checked against: at an edge (`packages/edge/ratelimit.go`, with the
edge's config index of `config.go`) and in the decision service (`packages/decide/service.go`). -/

namespace Gate

namespace Edge

/-! The edge's index of a config; a later entry replaces an earlier one of the same name. -/

def getPrefix (cfg : Types.GatewayConfig) (name : String) : Option Types.PrefixConfig :=
  cfg.prefixes.reverse.find? fun p => p.name = name

def serviceIndex (cfg : Types.GatewayConfig) : List (String × Types.ServiceConfig) :=
  cfg.prefixes.flatMap fun p => p.services.map fun s => (p.name ++ "\x00" ++ s.serviceID, s)

def getServiceConfig (cfg : Types.GatewayConfig) (name service : String) : Option Types.ServiceConfig :=
  if (getPrefix cfg name).isNone then none
  else (serviceIndex cfg).reverse.lookup (name ++ "\x00" ++ service)

def getTier (svc : Types.ServiceConfig) (tierID : String) : Option Types.TierConfig :=
  svc.tiers.find? fun t => t.tierID = tierID

/-- `request`: what the middleware chain knows of a routed and authenticated request. -/
structure RequestState where
  scope : String
  service : String
  svc : Types.ServiceConfig
  pfx : Option Types.PrefixConfig
  key : String
  tier : Types.TierConfig
  org : String
  clientIP : String

structure HTTPRequest where
  method : String
  /-- the integer a header carries, if it does (`strconv.ParseInt` of `Header.Get`) -/
  intHeader : String → Option ℤ

def methodCost (method : String) (t : Types.TierConfig) : ℤ :=
  if method = "GET" then t.getCost.toNat
  else if method = "POST" then t.postCost.toNat
  else if method = "PUT" then t.putCost.toNat
  else if method = "DELETE" then t.deleteCost.toNat
  else t.otherCost.toNat

/-- The cost reserved up front: the client's estimate, the configured one, or the method's. -/
def estimate (r : HTTPRequest) (c : Types.CostPolicy) (cost : ℤ) : ℤ :=
  let configured := if 0 < c.estimate then c.estimate else cost
  if c.estimateHeader ≠ "" then
    match r.intHeader c.estimateHeader with
    | some v => if 0 < v then v else configured
    | none => configured
  else configured

/-- The check of the caller's tier. -/
def baseCheck (policy : Types.EdgeRuntimePolicy) (r : HTTPRequest) (st : RequestState) : Request where
  scope := st.scope
  service := st.service
  limitID := ""
  key := st.key
  tier := st.tier.tierID
  org := st.org
  limit := st.tier.quota
  cost := match st.svc.cost with
    | none => methodCost r.method st.tier
    | some c => estimate r c (methodCost r.method st.tier)
  window := match st.pfx with
    | none => 0
    | some p => max p.quotaPeriod second
  algo := st.tier.algorithm
  leaseSize := match st.pfx with
    | none => 0
    | some p => (p.leasing.effective policy p.quotaPeriod).leaseQuantum
  shadow := st.svc.shadow
  maxDebt := match st.svc.cost with
    | none => 0
    | some c => c.maxDebt

/-- The check of one additional limit. -/
def limitCheck (hash : String → String) (st : RequestState) (base : Request) (l : Types.LimitSpec) :
    Request :=
  { base with
    limitID := l.id
    tier := ""
    org := ""
    limit := l.quota
    algo := l.algorithm
    shadow := l.shadow
    window := if 0 < l.window then l.window else base.window
    key :=
      if l.per = Types.perClientIP then hash ("ip:" ++ st.clientIP)
      else if l.per = Types.perService then Types.serviceSubject
      else base.key }

/-- `Server.checks`: the limits a request must fit, the caller's tier first. `hash` is `keys.Hash`. -/
def checks (hash : String → String) (policy : Types.EdgeRuntimePolicy) (r : HTTPRequest)
    (st : RequestState) : List Request :=
  let base := baseCheck policy r st
  base :: st.svc.limits.map (limitCheck hash st base)

/-- `safetyRule`: the substitute for a check while the hub is unreachable. -/
def safetyRule (st : RequestState) (method : String) (req : Request) : Option Request :=
  match st.svc.safetyTier with
  | none => none
  | some safety =>
    if !st.svc.failure.effectiveHubPolicy.allowOnRateServiceError then none
    else some { req with
      algo := .unset
      limit := if req.limitID = "" then safety.quota else req.limit
      cost := if req.limitID = "" then methodCost method safety else req.cost
      window := if req.window ≤ 0 then second else req.window }

end Edge

namespace Decide

/-- One descriptor of a `Check`. -/
structure Descriptor where
  entries : List Entry
  cost : ℤ

/-- The check `Decider.check` makes of a matched descriptor. -/
def checkOf (domain : String) (desc : Descriptor) (m : Match) : Request where
  scope := scope
  service := domain
  limitID := m.limitID
  key := m.subject
  tier := ""
  org := ""
  limit := m.spec.quota
  cost := max desc.cost 1
  window := max m.spec.window second
  algo := m.spec.algorithm
  leaseSize := 0
  shadow := m.spec.shadow
  maxDebt := 0

/-- The checks of `Decider.check`; a descriptor without a limit has none. -/
def checks (digest : String → String) (cfg : GatewayConfig) (domain : String) (descs : List Descriptor) :
    List Request :=
  descs.filterMap fun desc => (resolve digest cfg domain desc.entries).map (checkOf domain desc)

end Decide

end Gate
