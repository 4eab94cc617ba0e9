import Gate.Spec.Validate

/-! The hub's check of a config before it becomes the active one (`packages/hub/config.go`). -/

namespace Gate

section
variable (lib : Library)

def checkTiers (svcPath : String) (seen : List String) (i : ℕ) : List Types.TierConfig → Except String Unit
  | [] => .ok ()
  | t :: ts => do
    let tierPath := indexed (svcPath ++ ".tiers") i
    let tierID := trimSpace t.tierID
    failIf (tierID = "") (tierPath ++ ".tier_id is required")
    failIf (tierID ∈ seen) (tierPath ++ ".tier_id duplicates value " ++ lib.quote tierID)
    failIf (t.quota = 0) (tierPath ++ ".quota must be > 0")
    checkTiers svcPath (tierID :: seen) (i + 1) ts

def checkTarget (svcPath target : String) : Except String Unit :=
  match lib.parseRequestURI target with
  | .error err => .error (svcPath ++ ".target_url is invalid: " ++ err)
  | .ok u => do
    failIf (¬ Config.isHTTP u) (svcPath ++ ".target_url must use http or https")
    failIf (trimSpace u.host = "") (svcPath ++ ".target_url host is required")

def checkCache (svcPath : String) : Option Types.CacheConfig → Except String Unit
  | none => .ok ()
  | some c => failIf (c.enabled = true ∧ c.ttl ≤ 0) (svcPath ++ ".cache.ttl must be > 0 when cache is enabled")

def checkSafety (svcPath : String) (tiers : List Types.TierConfig) : Option Types.TierConfig → Except String Unit
  | none => .ok ()
  | some t => failIf (trimSpace t.tierID ∈ tiers.map (fun t => trimSpace t.tierID))
      (svcPath ++ ".safety_tier.tier_id must not duplicate any regular tier id")

def checkFailure (svcPath : String) (fc : Types.FailureConfig) : Except String Unit := do
  let hp := fc.effectiveHubPolicy
  failIf (hp.tierLookupStrategy ∉ ["fail-closed", "default-tier", "stale-or-default"])
    (svcPath ++ ".failure.hub.tier_lookup_strategy has invalid value " ++ lib.quote hp.tierLookupStrategy)
  failIf (hp.tierLookupStrategy ∈ ["default-tier", "stale-or-default"] ∧ trimSpace hp.defaultTier = "")
    (svcPath ++ ".failure.hub.default_tier is required for strategy " ++ lib.quote hp.tierLookupStrategy)
  let up := fc.effectiveUpstreamPolicy
  failIf (up.mode ∉ ["fail-closed", "fail-open"])
    (svcPath ++ ".failure.upstream.mode has invalid value " ++ lib.quote up.mode)
  checkEach (fun i code => failIf (code < 100 ∨ code > 599)
    (indexed (svcPath ++ ".failure.upstream.retry_on_statuses") i ++ " must be between 100 and 599"))
    0 up.retryOnStatuses

def checkService (svcPath pfx : String) (seen : List String) (service : Types.ServiceConfig) :
    Except String Unit := do
  service.validate.mapError fun err => svcPath ++ " is invalid: " ++ err
  let svcID := trimSpace service.serviceID
  failIf (svcID = "") (svcPath ++ ".service_id is required")
  failIf (svcID ∈ seen) (svcPath ++ ".service_id duplicates value " ++ lib.quote svcID ++ " within prefix " ++
    lib.quote pfx)
  checkTarget lib svcPath service.targetURL
  failIf (service.tiers = []) (svcPath ++ ".tiers must include at least one tier")
  checkTiers lib svcPath [] 0 service.tiers
  checkCache svcPath service.cache
  checkSafety svcPath service.tiers service.safetyTier
  checkFailure lib svcPath service.failure

def checkServices (path pfx : String) (seen : List String) (i : ℕ) :
    List Types.ServiceConfig → Except String Unit
  | [] => .ok ()
  | s :: ss => do
    checkService lib (indexed (path ++ ".services") i) pfx seen s
    checkServices path pfx (trimSpace s.serviceID :: seen) (i + 1) ss

def checkPrefix (path : String) (seen : List String) (p : Types.PrefixConfig) : Except String Unit := do
  let pfx := trimSpace p.name
  failIf (pfx = "") (path ++ ".prefix is required")
  failIf (pfx ∈ seen) (path ++ ".prefix duplicates value " ++ lib.quote pfx)
  failIf (p.quotaPeriod ≤ 0) (path ++ ".quota_period must be > 0")
  failIf (p.services = []) (path ++ ".services must include at least one service")
  checkServices lib path pfx [] 0 p.services

def checkPrefixes (seen : List String) (i : ℕ) : List Types.PrefixConfig → Except String Unit
  | [] => .ok ()
  | p :: ps => do
    checkPrefix lib (indexed "prefixes" i) seen p
    checkPrefixes (trimSpace p.name :: seen) (i + 1) ps

/-- `ValidateGatewayConfig`; `none` is a nil config. -/
def validateGatewayConfig (cfg : Option Types.GatewayConfig) : Except String Unit :=
  match cfg with
  | none => .error "config is nil"
  | some cfg => do
    cfg.validate.mapError ("config validation failed: " ++ ·)
    failIf (cfg.prefixes = []) "config must include at least one prefix"
    checkPrefixes lib [] 0 cfg.prefixes

end

end Gate
