import Gate.Spec.Config
import Mathlib.Data.List.AList

/-! The runtime model the hub serves to edges (`packages/common/types/config.go`,
`policies.go`) in full, with its defaults and checks. `Gate.Spec.Config` holds the part that
rate limiting reads; `GatewayConfig.limiting` takes a full config to it. -/

namespace Gate

/-- `map[string]α`. -/
abbrev GoMap (α : Type) := AList fun _ : String => α

/-- An early return with an error, as in `if bad { return err }`. -/
def failIf (bad : Prop) [Decidable bad] (msg : String) : Except String Unit :=
  if bad then .error msg else .ok ()

/-- The checks of a loop's elements, in order; the first error stops it. -/
def checkEach {α : Type} (check : ℕ → α → Except String Unit) : ℕ → List α → Except String Unit
  | _, [] => .ok ()
  | i, x :: xs => do
    check i x
    checkEach check (i + 1) xs

/-- `path[i]`. -/
def indexed (path : String) (i : ℕ) : String := path ++ "[" ++ toString i ++ "]"

namespace Types

structure TierConfig extends Gate.TierConfig where
  getCost : UInt8
  postCost : UInt8
  putCost : UInt8
  deleteCost : UInt8
  otherCost : UInt8
  deriving DecidableEq

structure LimitSpec extends Gate.LimitSpec where
  per : String
  deriving DecidableEq

def perKey : String := "key"
def perClientIP : String := "client_ip"
def perService : String := "service"

/-- The subject of a service-wide limit. -/
def serviceSubject : String := "_service"

structure OrgLimit extends Gate.OrgLimit where
  /-- JWT claim naming the org -/
  claim : String
  deriving DecidableEq

structure GlobalLimit where
  floors : GoMap ℚ
  deriving DecidableEq

structure CostPolicy where
  estimate : ℤ
  estimateHeader : String
  actualHeader : String
  onMissing : String
  maxDebt : ℤ
  deriving DecidableEq

structure CircuitBreakerConfig where
  failures : ℤ
  cooldown : ℤ
  deriving DecidableEq

structure JWTConfig where
  jwksURL : String
  issuer : String
  audience : String
  tierClaim : String
  deriving DecidableEq

structure AuthConfig where
  type : String
  jwt : Option JWTConfig
  deriving DecidableEq

structure TransformConfig where
  stripPrefix : Bool
  addHeaders : GoMap String
  hideHeaders : List String
  deriving DecidableEq

structure CORSConfig where
  allowedOrigins : List String
  allowedMethods : List String
  allowedHeaders : List String
  maxAge : ℤ
  deriving DecidableEq

structure CacheConfig where
  enabled : Bool
  ttl : ℤ
  cacheKey : String
  deriving DecidableEq

def analyticsModeLite : String := "lite"
def analyticsModeHeavy : String := "heavy"

structure AnalyticsConfig where
  enabled : Bool
  mode : String
  samplingRate : ℚ
  deriving DecidableEq

def AnalyticsConfig.effectiveMode (a : AnalyticsConfig) : String :=
  if !a.enabled then analyticsModeLite
  else if a.mode = "" then analyticsModeHeavy
  else a.mode

def AnalyticsConfig.validate (a : AnalyticsConfig) : Except String Unit := do
  failIf (a.effectiveMode ≠ analyticsModeLite ∧ a.effectiveMode ≠ analyticsModeHeavy)
    "mode must be one of \"lite\" or \"heavy\""
  failIf (a.samplingRate < 0 ∨ a.samplingRate > 1) "sampling_rate must be between 0 and 1"

structure HubFailurePolicy where
  tierLookupStrategy : String
  defaultTier : String
  staleTierMaxAge : ℤ
  allowOnRateServiceError : Bool
  deriving DecidableEq

structure UpstreamFailurePolicy where
  mode : String
  maxRetries : ℤ
  retryBackoff : ℤ
  retryOnStatuses : List ℤ
  retryNonIdempotentMethods : Bool
  attemptTimeout : ℤ
  fallbackStatusCode : ℤ
  fallbackBody : String
  fallbackHeaders : GoMap String
  deriving DecidableEq

structure FailureConfig where
  failOpen : Bool
  fallbackTier : String
  hub : HubFailurePolicy
  upstream : UpstreamFailurePolicy
  deriving DecidableEq

def FailureConfig.effectiveHubPolicy (fc : FailureConfig) : HubFailurePolicy :=
  { fc.hub with
    tierLookupStrategy := if fc.hub.tierLookupStrategy = "" then "fail-closed" else fc.hub.tierLookupStrategy
    defaultTier := if fc.hub.defaultTier = "" then fc.fallbackTier else fc.hub.defaultTier
    staleTierMaxAge := if fc.hub.staleTierMaxAge ≤ 0 then 6 * 3600 * second else fc.hub.staleTierMaxAge }

def FailureConfig.effectiveUpstreamPolicy (fc : FailureConfig) : UpstreamFailurePolicy :=
  { fc.upstream with
    mode := if fc.upstream.mode = "" then (if fc.failOpen then "fail-open" else "fail-closed")
      else fc.upstream.mode
    maxRetries := if fc.upstream.maxRetries < 0 then 0 else fc.upstream.maxRetries
    retryBackoff := if fc.upstream.retryBackoff ≤ 0 then 50 * millisecond else fc.upstream.retryBackoff
    fallbackStatusCode :=
      if fc.upstream.fallbackStatusCode ≤ 0 then 503 else fc.upstream.fallbackStatusCode
    fallbackBody := if fc.upstream.fallbackBody = "" then "Service temporarily degraded"
      else fc.upstream.fallbackBody }

structure ServiceConfig where
  serviceID : String
  targetURL : String
  tiers : List TierConfig
  safetyTier : Option TierConfig
  transform : TransformConfig
  cors : Option CORSConfig
  analytics : AnalyticsConfig
  cache : Option CacheConfig
  failure : FailureConfig
  upstreams : List String
  loadBalancing : String
  circuitBreaker : Option CircuitBreakerConfig
  auth : AuthConfig
  maxConcurrent : ℤ
  methods : List String
  host : String
  timeout : ℤ
  maxBodyBytes : ℤ
  limits : List LimitSpec
  org : Option OrgLimit
  shadow : Bool
  cost : Option CostPolicy
  lease : LeasePolicy
  global : Option GlobalLimit
  deriving DecidableEq

def ServiceConfig.targets (s : ServiceConfig) : List String :=
  if s.upstreams ≠ [] then s.upstreams else [s.targetURL]

def ServiceConfig.authType (s : ServiceConfig) : String :=
  if s.auth.type = "" then "api_key" else s.auth.type

def ServiceConfig.validate (s : ServiceConfig) : Except String Unit := do
  s.analytics.validate.mapError ("analytics: " ++ ·)
  match s.safetyTier with
  | none => return ()
  | some t =>
    failIf (t.tierID = "") "safety_tier.tier_id is required"
    failIf (t.quota = 0) "safety_tier.quota must be > 0"

structure LeasingConfig where
  leaseQuantum : ℤ
  lowWaterPct : ℚ
  leaseTTL : ℤ
  renewalBuffer : ℤ
  deriving DecidableEq

structure PrefixConfig where
  name : String
  quotaPeriod : ℤ
  leasing : LeasingConfig
  services : List ServiceConfig
  deriving DecidableEq

def PrefixConfig.validate (p : PrefixConfig) : Except String Unit := do
  failIf (p.leasing.leaseQuantum < 0) "leasing.lease_quantum must be >= 0"
  failIf (p.leasing.lowWaterPct < 0) "leasing.low_water_pct must be >= 0"
  failIf (p.leasing.leaseTTL < 0) "leasing.lease_ttl must be >= 0"
  failIf (p.leasing.renewalBuffer < 0) "leasing.renewal_buffer must be >= 0"
  checkEach (fun i s => s.validate.mapError (indexed "services" i ++ ": " ++ ·)) 0 p.services

structure HubRuntimePolicy where
  corsAllowedHeaders : List String
  corsAllowedMethods : List String
  corsPreflightMaxAge : ℤ
  apiKeyPattern : String
  httpReadTimeout : ℤ
  httpWriteTimeout : ℤ
  httpShutdownTimeout : ℤ
  deriving DecidableEq

structure EdgeRuntimePolicy where
  analyticsBufferSize : ℤ
  analyticsPublishTimeout : ℤ
  rateLeaseSize : ℤ
  rateLowWaterPct : ℚ
  cacheMaxObjectBytes : ℤ
  upstreamClientTimeout : ℤ
  upstreamMaxIdleConns : ℤ
  upstreamIdleConnTimeout : ℤ
  httpReadTimeout : ℤ
  httpWriteTimeout : ℤ
  httpIdleTimeout : ℤ
  deriving DecidableEq

structure AnalyticsRuntimePolicy where
  readTimeout : ℤ
  writeTimeout : ℤ
  idleTimeout : ℤ
  defaultEventsLimit : ℤ
  maxEventsLimit : ℤ
  maxEventsOffset : ℤ
  defaultSummaryLimit : ℤ
  maxSummaryLimit : ℤ
  natsSubject : String
  natsQueue : String
  configFetchTimeout : ℤ
  shutdownTimeout : ℤ
  deriving DecidableEq

structure RuntimePolicy where
  hub : HubRuntimePolicy
  edge : EdgeRuntimePolicy
  analytics : AnalyticsRuntimePolicy
  deriving DecidableEq

def defaultRuntimePolicy : RuntimePolicy where
  hub := {
    corsAllowedHeaders := ["Authorization", "Content-Type", "X-API-Key"]
    corsAllowedMethods := ["GET", "POST", "PUT", "DELETE", "OPTIONS"]
    corsPreflightMaxAge := 300 * second
    apiKeyPattern := defaultKeyPattern
    httpReadTimeout := 5 * second
    httpWriteTimeout := 10 * second
    httpShutdownTimeout := 15 * second }
  edge := {
    analyticsBufferSize := 1000
    analyticsPublishTimeout := 2 * second
    rateLeaseSize := 100
    rateLowWaterPct := 20
    cacheMaxObjectBytes := 1048576
    upstreamClientTimeout := 30 * second
    upstreamMaxIdleConns := 100
    upstreamIdleConnTimeout := 90 * second
    httpReadTimeout := 15 * second
    httpWriteTimeout := 15 * second
    httpIdleTimeout := 60 * second }
  analytics := {
    readTimeout := 10 * second
    writeTimeout := 10 * second
    idleTimeout := 30 * second
    defaultEventsLimit := 100
    maxEventsLimit := 5000
    maxEventsOffset := 1000000
    defaultSummaryLimit := 1000
    maxSummaryLimit := 10000
    natsSubject := "analytics.events"
    natsQueue := "analytics-subscribers"
    configFetchTimeout := 5 * second
    shutdownTimeout := 5 * second }

def positiveOr (v default : ℤ) : ℤ := if v ≤ 0 then default else v
def percentOr (v default : ℚ) : ℚ := if v ≤ 0 ∨ v > 100 then default else v
def listOr (v default : List String) : List String := if v = [] then default else v
def textOr (v default : String) : String := if trimSpace v = "" then default else v

def HubRuntimePolicy.effective (p : HubRuntimePolicy) : HubRuntimePolicy :=
  let d := defaultRuntimePolicy.hub
  { corsAllowedHeaders := listOr p.corsAllowedHeaders d.corsAllowedHeaders
    corsAllowedMethods := listOr p.corsAllowedMethods d.corsAllowedMethods
    corsPreflightMaxAge := positiveOr p.corsPreflightMaxAge d.corsPreflightMaxAge
    apiKeyPattern := textOr p.apiKeyPattern d.apiKeyPattern
    httpReadTimeout := positiveOr p.httpReadTimeout d.httpReadTimeout
    httpWriteTimeout := positiveOr p.httpWriteTimeout d.httpWriteTimeout
    httpShutdownTimeout := positiveOr p.httpShutdownTimeout d.httpShutdownTimeout }

def EdgeRuntimePolicy.effective (p : EdgeRuntimePolicy) : EdgeRuntimePolicy :=
  let d := defaultRuntimePolicy.edge
  { analyticsBufferSize := positiveOr p.analyticsBufferSize d.analyticsBufferSize
    analyticsPublishTimeout := positiveOr p.analyticsPublishTimeout d.analyticsPublishTimeout
    rateLeaseSize := positiveOr p.rateLeaseSize d.rateLeaseSize
    rateLowWaterPct := percentOr p.rateLowWaterPct d.rateLowWaterPct
    cacheMaxObjectBytes := positiveOr p.cacheMaxObjectBytes d.cacheMaxObjectBytes
    upstreamClientTimeout := positiveOr p.upstreamClientTimeout d.upstreamClientTimeout
    upstreamMaxIdleConns := positiveOr p.upstreamMaxIdleConns d.upstreamMaxIdleConns
    upstreamIdleConnTimeout := positiveOr p.upstreamIdleConnTimeout d.upstreamIdleConnTimeout
    httpReadTimeout := positiveOr p.httpReadTimeout d.httpReadTimeout
    httpWriteTimeout := positiveOr p.httpWriteTimeout d.httpWriteTimeout
    httpIdleTimeout := positiveOr p.httpIdleTimeout d.httpIdleTimeout }

def AnalyticsRuntimePolicy.effective (p : AnalyticsRuntimePolicy) : AnalyticsRuntimePolicy :=
  let d := defaultRuntimePolicy.analytics
  { readTimeout := positiveOr p.readTimeout d.readTimeout
    writeTimeout := positiveOr p.writeTimeout d.writeTimeout
    idleTimeout := positiveOr p.idleTimeout d.idleTimeout
    defaultEventsLimit := positiveOr p.defaultEventsLimit d.defaultEventsLimit
    maxEventsLimit := positiveOr p.maxEventsLimit d.maxEventsLimit
    maxEventsOffset := positiveOr p.maxEventsOffset d.maxEventsOffset
    defaultSummaryLimit := positiveOr p.defaultSummaryLimit d.defaultSummaryLimit
    maxSummaryLimit := positiveOr p.maxSummaryLimit d.maxSummaryLimit
    natsSubject := textOr p.natsSubject d.natsSubject
    natsQueue := textOr p.natsQueue d.natsQueue
    configFetchTimeout := positiveOr p.configFetchTimeout d.configFetchTimeout
    shutdownTimeout := positiveOr p.shutdownTimeout d.shutdownTimeout }

def RuntimePolicy.effective (rp : RuntimePolicy) : RuntimePolicy :=
  ⟨rp.hub.effective, rp.edge.effective, rp.analytics.effective⟩

def HubRuntimePolicy.validate (p : HubRuntimePolicy) : Except String Unit := do
  failIf (p.corsPreflightMaxAge < 0) "cors_preflight_max_age must be >= 0"
  failIf (p.httpReadTimeout < 0 ∨ p.httpWriteTimeout < 0 ∨ p.httpShutdownTimeout < 0)
    "timeouts must be >= 0"

def EdgeRuntimePolicy.validate (p : EdgeRuntimePolicy) : Except String Unit := do
  failIf (p.analyticsBufferSize < 0) "analytics_buffer_size must be >= 0"
  failIf (p.analyticsPublishTimeout < 0) "analytics_publish_timeout must be >= 0"
  failIf (p.rateLeaseSize < 0) "rate_lease_size must be >= 0"
  failIf (p.rateLowWaterPct < 0 ∨ p.rateLowWaterPct > 100)
    "rate_low_water_pct must be between 0 and 100"
  failIf (p.cacheMaxObjectBytes < 0) "cache_max_object_bytes must be >= 0"
  failIf (p.upstreamClientTimeout < 0 ∨ p.upstreamIdleConnTimeout < 0 ∨ p.httpReadTimeout < 0 ∨
    p.httpWriteTimeout < 0 ∨ p.httpIdleTimeout < 0) "edge timeouts must be >= 0"
  failIf (p.upstreamMaxIdleConns < 0) "upstream_max_idle_conns must be >= 0"

def AnalyticsRuntimePolicy.validate (p : AnalyticsRuntimePolicy) : Except String Unit := do
  failIf (p.readTimeout < 0 ∨ p.writeTimeout < 0 ∨ p.idleTimeout < 0 ∨ p.configFetchTimeout < 0 ∨
    p.shutdownTimeout < 0) "timeouts must be >= 0"
  failIf (p.defaultEventsLimit < 0 ∨ p.maxEventsLimit < 0 ∨ p.maxEventsOffset < 0 ∨
    p.defaultSummaryLimit < 0 ∨ p.maxSummaryLimit < 0) "limits/offsets must be >= 0"
  failIf (p.maxEventsLimit > 0 ∧ p.defaultEventsLimit > p.maxEventsLimit)
    "default_events_limit must be <= max_events_limit"
  failIf (p.maxSummaryLimit > 0 ∧ p.defaultSummaryLimit > p.maxSummaryLimit)
    "default_summary_limit must be <= max_summary_limit"

def RuntimePolicy.validate (rp : RuntimePolicy) : Except String Unit := do
  rp.hub.validate.mapError ("hub: " ++ ·)
  rp.edge.validate.mapError ("edge: " ++ ·)
  rp.analytics.validate.mapError ("analytics: " ++ ·)

/-- `LeasingConfig.Effective`: a prefix's overrides over the edge's defaults. -/
def LeasingConfig.effective (lc : LeasingConfig) (global : EdgeRuntimePolicy) (quotaPeriod : ℤ) :
    LeasingConfig where
  leaseQuantum := positiveOr lc.leaseQuantum global.rateLeaseSize
  lowWaterPct := if lc.lowWaterPct ≤ 0 then global.rateLowWaterPct else lc.lowWaterPct
  leaseTTL := positiveOr lc.leaseTTL (if 0 < quotaPeriod then quotaPeriod else 60 * second)
  renewalBuffer := positiveOr lc.renewalBuffer (2 * second)

structure GatewayConfig where
  prefixes : List PrefixConfig
  runtime : RuntimePolicy
  descriptors : List DescriptorDomain

def GatewayConfig.validate (cfg : GatewayConfig) : Except String Unit := do
  checkEach (fun i p => p.validate.mapError (indexed "prefixes" i ++ ": " ++ ·)) 0 cfg.prefixes
  cfg.runtime.validate.mapError ("runtime: " ++ ·)

def GatewayConfig.findPrefix (cfg : GatewayConfig) (name : String) : Option PrefixConfig :=
  if trimSpace name = "" then none else cfg.prefixes.find? fun p => p.name = trimSpace name

def GatewayConfig.findService (cfg : GatewayConfig) (name service : String) :
    Option (PrefixConfig × ServiceConfig) := do
  let p ← cfg.findPrefix name
  let s ← p.services.find? fun s => s.serviceID = trimSpace service
  return (p, s)

/-! What rate limiting reads. -/

def ServiceConfig.limiting (s : ServiceConfig) : Gate.ServiceConfig where
  serviceID := s.serviceID
  tiers := s.tiers.map (·.toTierConfig)
  safetyTier := s.safetyTier.map (·.toTierConfig)
  authType := s.auth.type
  limits := s.limits.map (·.toLimitSpec)
  org := s.org.map (·.toOrgLimit)
  lease := s.lease
  global := s.global.map fun g => ⟨g.floors.entries.map fun e => (e.1, e.2)⟩

def PrefixConfig.limiting (p : PrefixConfig) : Gate.PrefixConfig where
  name := p.name
  quotaPeriod := p.quotaPeriod
  services := p.services.map ServiceConfig.limiting

def GatewayConfig.limiting (cfg : GatewayConfig) : Gate.GatewayConfig where
  prefixes := cfg.prefixes.map PrefixConfig.limiting
  descriptors := cfg.descriptors
  apiKeyPattern := cfg.runtime.hub.apiKeyPattern

end Types

end Gate
