import Gate.Spec.File

/-! From the config file to the runtime model and back (`packages/config/compile.go`). -/

namespace Gate.Config

def defaultCacheKey : String := "\x7bmethod\x7d:\x7bpath\x7d:\x7bquery\x7d:\x7bkey\x7d"

/-- The tier behind `when_hub_unavailable`. -/
def safetyTierID : String := "_hub_unavailable"

def defaultCORSMethods : List String := ["GET", "POST", "PUT", "DELETE", "OPTIONS"]

/-- `strings.NewReplacer(..).Replace`: left to right, the first pair that matches at a position
wins; `skip` characters of the last match are still to be passed over. -/
def replaceFrom (pairs : List (String × String)) : ℕ → List Char → List Char
  | _, [] => []
  | skip + 1, _ :: cs => replaceFrom pairs skip cs
  | 0, c :: cs =>
    match pairs.find? fun p => p.1.toList.isPrefixOf (c :: cs) with
    | some p => p.2.toList ++ replaceFrom pairs (p.1.length - 1) cs
    | none => c :: replaceFrom pairs 0 cs

def replace (pairs : List (String × String)) (s : String) : String :=
  String.ofList (replaceFrom pairs 0 s.toList)

/-- The runtime's cache-key template uses `$tokens`. -/
def toInternalCacheKey : List (String × String) :=
  [("\x7bmethod\x7d", "$method"), ("\x7bpath\x7d", "$path"), ("\x7bquery\x7d", "$query"),
    ("\x7bkey\x7d", "$key"), ("\x7bencoding\x7d", "$enc")]

def fromInternalCacheKey : List (String × String) :=
  [("$method", "\x7bmethod\x7d"), ("$path", "\x7bpath\x7d"), ("$query", "\x7bquery\x7d"),
    ("$key", "\x7bkey\x7d"), ("$enc", "\x7bencoding\x7d"),
    ("$METHOD", "\x7bmethod\x7d"), ("$PATH", "\x7bpath\x7d"), ("$QUERY", "\x7bquery\x7d"),
    ("$KEY", "\x7bkey\x7d"), ("$ENC", "\x7bencoding\x7d")]

/-- Stores the default algorithm as the empty name. -/
def internalAlgo (a : Algo) : Algo := if a = .fixedWindow then .unset else a

/-! ### The file to the runtime model -/

/-- A limit's quota and rate: the burst and the refill of a token bucket, the requests of a window. -/
def compileSpec (id : String) (algo : Algo) (requests burst : UInt32) (window : ℤ) (rate : ℚ)
    (shadow : Bool) : LimitSpec where
  id := id
  algorithm := internalAlgo algo
  quota := if internalAlgo algo = .tokenBucket then burst.toNat else requests.toNat
  window := window
  rate := if internalAlgo algo = .tokenBucket then rate else 0
  shadow := shadow

mutual

def compileEntry : DescriptorEntry → Gate.DescriptorEntry
  | .mk key value limit mode entries =>
    .mk key value
      (limit.map fun l => compileSpec key l.algorithm l.requests l.burst l.window l.rate (mode = "shadow"))
      (compileEntries entries)

def compileEntries : List DescriptorEntry → List Gate.DescriptorEntry
  | [] => []
  | e :: es => compileEntry e :: compileEntries es

end

/-- What one request of a method costs in a tier. -/
def Tier.costOf (t : Tier) (method : String) : UInt8 :=
  match t.cost.lookup method with
  | some c => c
  | none =>
    match t.cost.lookup "*" with
    | some c => c
    | none => 1

def compileTier (name : String) (t : Tier) (defaultAlgo : Algo) : Types.TierConfig :=
  let algo := internalAlgo (orAlgo t.algorithm defaultAlgo)
  { tierID := name
    quota := if algo = .tokenBucket then t.burst.toNat else t.requests.toNat
    algorithm := algo
    rate := if algo = .tokenBucket then t.rate else 0
    getCost := t.costOf "GET"
    postCost := t.costOf "POST"
    putCost := t.costOf "PUT"
    deleteCost := t.costOf "DELETE"
    otherCost := t.costOf "*" }

def compileExtra (a : ExtraLimit) : Types.LimitSpec :=
  { compileSpec a.name a.algorithm a.requests a.burst a.window a.rate (a.mode = "shadow") with
    per := orDefault a.per Types.perKey }

def compileBreaker (s : Service) : Option Types.CircuitBreakerConfig :=
  match s.circuitBreaker with
  | some cb => some ⟨cb.failures, cb.cooldown⟩
  | none => if 1 < s.upstreams.length then some ⟨5, 10 * second⟩ else none

def compileAuth (a : Option Auth) : Types.AuthConfig :=
  match a with
  | none => ⟨"", none⟩
  | some a => ⟨a.type, a.jwt.map fun j => ⟨j.jwksURL, j.issuer, j.audience, j.tierClaim⟩⟩

def compileHubPolicy (l : Limits) : Types.HubFailurePolicy where
  tierLookupStrategy := if l.defaultTier = "" then "fail-closed" else "stale-or-default"
  defaultTier := l.defaultTier
  staleTierMaxAge := 0
  allowOnRateServiceError := l.whenHubUnavailable.isSome

def compileCache (c : Cache) : Types.CacheConfig where
  enabled := true
  ttl := c.ttl
  cacheKey := replace toInternalCacheKey (if c.key = "" then defaultCacheKey else c.key)

def compileCORS (c : CORS) : Types.CORSConfig where
  allowedOrigins := c.origins
  allowedMethods := if c.methods = [] then defaultCORSMethods else c.methods
  allowedHeaders := c.headers
  maxAge := if c.maxAge = 0 then 300 * second else c.maxAge

def compileAnalytics (a : Option Analytics) : Types.AnalyticsConfig where
  enabled := ((a.bind (·.enabled)).getD true)
  mode := Types.analyticsModeHeavy
  samplingRate := ((a.bind (·.sampleRate)).getD 1)

def noRetries : Types.UpstreamFailurePolicy where
  mode := "fail-closed"
  maxRetries := 0
  retryBackoff := 0
  retryOnStatuses := []
  retryNonIdempotentMethods := false
  attemptTimeout := 0
  fallbackStatusCode := 0
  fallbackBody := ""
  fallbackHeaders := ∅

def compileRetries (r : Option Retries) : Types.UpstreamFailurePolicy :=
  match r with
  | none => noRetries
  | some r => { noRetries with
      maxRetries := r.attempts - 1
      retryOnStatuses := r.statuses
      retryBackoff := r.backoff
      attemptTimeout := r.perAttemptTimeout
      retryNonIdempotentMethods := r.nonIdempotent }

def compileUpstreamError (e : Option UpstreamError) (up : Types.UpstreamFailurePolicy) :
    Types.UpstreamFailurePolicy :=
  match e with
  | none => up
  | some e => { up with
      mode := e.mode
      fallbackStatusCode := e.status
      fallbackBody := e.body
      fallbackHeaders := e.headers }

def compileService (s : Service) : Types.ServiceConfig where
  serviceID := s.name
  targetURL := s.upstreams.headD s.upstream
  tiers := (sortedTierNames s.limits.tiers).map fun name =>
    compileTier name ((s.limits.tiers.lookup name).getD {}) s.limits.algorithm
  safetyTier := s.limits.whenHubUnavailable.map fun fb =>
    compileTier safetyTierID { requests := fb.allow } .unset
  transform := {
    stripPrefix := s.stripPathPrefix.getD true
    addHeaders := (s.headers.map (·.add)).getD ∅
    hideHeaders := (s.headers.map (·.hide)).getD [] }
  cors := s.cors.map compileCORS
  analytics := compileAnalytics s.analytics
  cache := s.cache.map compileCache
  failure := {
    failOpen := (s.onUpstreamError.map fun e => decide (e.mode = "fail-open")).getD false
    fallbackTier := ""
    hub := compileHubPolicy s.limits
    upstream := compileUpstreamError s.onUpstreamError (compileRetries s.retries) }
  upstreams := s.upstreams
  loadBalancing := s.loadBalancing
  circuitBreaker := compileBreaker s
  auth := compileAuth s.auth
  maxConcurrent := s.limits.maxConcurrent
  methods := s.match.methods
  host := s.match.host
  timeout := s.timeout
  maxBodyBytes := s.maxRequestBody
  limits := s.limits.also.map compileExtra
  org := s.limits.org.map fun o => { quota := o.requests.toNat, window := o.window, claim := o.claim }
  shadow := s.limits.mode = "shadow"
  cost := s.limits.cost.map fun c => ⟨c.estimate, c.estimateHeader, c.actualHeader, c.onMissing, c.maxDebt⟩
  lease := match s.limits.leasing with
    | none => ⟨"", 0, 0, 0⟩
    | some p => ⟨p.mode, p.horizon, p.min, p.max⟩
  global := s.limits.global.map fun g => ⟨g.floors⟩

def compileRuntime (r : Runtime) : Types.RuntimePolicy :=
  Types.RuntimePolicy.effective {
    hub := {
      apiKeyPattern := r.hub.apiKeyPattern
      corsAllowedHeaders := r.hub.corsHeaders
      corsAllowedMethods := r.hub.corsMethods
      corsPreflightMaxAge := r.hub.corsMaxAge
      httpReadTimeout := r.hub.readTimeout
      httpWriteTimeout := r.hub.writeTimeout
      httpShutdownTimeout := r.hub.shutdownTimeout }
    edge := {
      rateLeaseSize := r.edge.leaseSize
      rateLowWaterPct := r.edge.leaseLowWaterPct
      analyticsBufferSize := r.edge.analyticsBufferSize
      analyticsPublishTimeout := r.edge.analyticsPublishTimeout
      cacheMaxObjectBytes := r.edge.cacheMaxObjectBytes
      upstreamClientTimeout := r.edge.upstreamTimeout
      upstreamMaxIdleConns := r.edge.upstreamMaxIdleConns
      upstreamIdleConnTimeout := r.edge.upstreamIdleConnTimeout
      httpReadTimeout := r.edge.readTimeout
      httpWriteTimeout := r.edge.writeTimeout
      httpIdleTimeout := r.edge.idleTimeout }
    analytics := {
      natsSubject := r.analytics.natsSubject
      natsQueue := r.analytics.natsQueue
      defaultEventsLimit := r.analytics.defaultEventsLimit
      maxEventsLimit := r.analytics.maxEventsLimit
      maxEventsOffset := r.analytics.maxEventsOffset
      defaultSummaryLimit := r.analytics.defaultSummaryLimit
      maxSummaryLimit := r.analytics.maxSummaryLimit
      readTimeout := r.analytics.readTimeout
      writeTimeout := r.analytics.writeTimeout
      idleTimeout := r.analytics.idleTimeout
      configFetchTimeout := r.analytics.configFetchTimeout
      shutdownTimeout := r.analytics.shutdownTimeout } }

/-- One turn of `Compile`'s loop: services sharing a path group become one prefix, which takes
its window and lease size from the first of them. -/
def addService (prefixes : List Types.PrefixConfig) (s : Service) : List Types.PrefixConfig :=
  if prefixes.any (·.name = s.group) then
    prefixes.map fun p =>
      if p.name = s.group then { p with services := p.services ++ [compileService s] } else p
  else prefixes ++ [{
    name := s.group
    quotaPeriod := s.limits.window
    leasing := ⟨s.limits.leaseSize, 0, 0, 0⟩
    services := [compileService s] }]

def compile (f : File) : Types.GatewayConfig where
  prefixes := f.services.foldl addService []
  runtime := compileRuntime f.runtime
  descriptors := f.descriptors.map fun d => ⟨d.domain, compileEntries d.entries⟩

/-! ### The runtime model to a file, without what equals a default -/

def limitFromInternal (l : Gate.LimitSpec) : DescriptorLimit :=
  if l.algorithm = .tokenBucket then
    { algorithm := l.algorithm, requests := 0, window := l.window, rate := l.rate,
      burst := UInt32.ofInt l.quota }
  else
    { algorithm := l.algorithm, requests := UInt32.ofInt l.quota, window := l.window, rate := 0, burst := 0 }

mutual

def entryFromInternal : Gate.DescriptorEntry → DescriptorEntry
  | .mk key value limit entries =>
    .mk key value (limit.map limitFromInternal)
      (if (limit.map (·.shadow)).getD false then "shadow" else "") (entriesFromInternal entries)

def entriesFromInternal : List Gate.DescriptorEntry → List DescriptorEntry
  | [] => []
  | e :: es => entryFromInternal e :: entriesFromInternal es

end

/-- `add` of `tierFromInternal`: costs of 1 are left out. -/
def addCost (m : GoMap UInt8) (method : String) (c : UInt8) : GoMap UInt8 :=
  if 1 < c then m.insert method c else m

def costsFromInternal (t : Types.TierConfig) : GoMap UInt8 :=
  addCost (addCost (addCost (addCost (addCost ∅ "GET" t.getCost) "POST" t.postCost)
    "PUT" t.putCost) "DELETE" t.deleteCost) "*" t.otherCost

def tierFromInternal (t : Types.TierConfig) : Tier where
  requests := if t.algorithm = .tokenBucket then 0 else UInt32.ofNat t.quota
  cost := costsFromInternal t
  algorithm := t.algorithm
  rate := if t.algorithm = .tokenBucket then t.rate else 0
  burst := if t.algorithm = .tokenBucket then UInt32.ofNat t.quota else 0

def extraFromInternal (l : Types.LimitSpec) : ExtraLimit where
  name := l.id
  per := if l.per ≠ Types.perKey then l.per else ""
  algorithm := l.algorithm
  requests := if l.algorithm = .tokenBucket then 0 else UInt32.ofInt l.quota
  window := l.window
  rate := if l.algorithm = .tokenBucket then l.rate else 0
  burst := if l.algorithm = .tokenBucket then UInt32.ofInt l.quota else 0
  mode := if l.shadow then "shadow" else ""

def tiersFromInternal (ts : List Types.TierConfig) : GoMap Tier :=
  ts.foldl (fun m t => m.insert t.tierID (tierFromInternal t)) ∅

def limitsFromInternal (p : Types.PrefixConfig) (svc : Types.ServiceConfig) : Limits where
  window := p.quotaPeriod
  leaseSize := p.leasing.leaseQuantum
  tiers := tiersFromInternal svc.tiers
  maxConcurrent := svc.maxConcurrent
  defaultTier :=
    let hp := svc.failure.effectiveHubPolicy
    if hp.tierLookupStrategy ≠ "fail-closed" ∧ hp.defaultTier ≠ "" then hp.defaultTier else ""
  whenHubUnavailable :=
    if svc.failure.effectiveHubPolicy.allowOnRateServiceError then
      svc.safetyTier.map fun t => ⟨UInt32.ofNat t.quota⟩
    else none
  mode := if svc.shadow then "shadow" else ""
  leasing := if svc.lease ≠ ⟨"", 0, 0, 0⟩ then
      some ⟨svc.lease.mode, svc.lease.horizon, svc.lease.min, svc.lease.max⟩ else none
  org := svc.org.map fun o => ⟨UInt32.ofInt o.quota, o.window, o.claim⟩
  also := svc.limits.map extraFromInternal
  global := svc.global.map fun g => ⟨g.floors⟩
  cost := svc.cost.map fun c => ⟨c.actualHeader, c.estimate, c.estimateHeader, c.onMissing, c.maxDebt⟩

def breakerFromInternal (svc : Types.ServiceConfig) : Option CircuitBreaker :=
  match svc.circuitBreaker with
  | none => none
  | some cb =>
    if 1 < svc.upstreams.length ∧ cb.failures = 5 ∧ cb.cooldown = 10 * second then none
    else some ⟨cb.failures, cb.cooldown⟩

def authFromInternal (a : Types.AuthConfig) : Option Auth :=
  if a.type ≠ "" ∧ a.type ≠ "api_key" then
    some ⟨a.type, a.jwt.map fun j => ⟨j.jwksURL, j.issuer, j.audience, j.tierClaim⟩⟩
  else none

def cacheFromInternal (c : Types.CacheConfig) : Option Cache :=
  if c.enabled then
    let key := replace fromInternalCacheKey c.cacheKey
    some ⟨c.ttl, if key = defaultCacheKey then "" else key⟩
  else none

def corsFromInternal (c : Types.CORSConfig) : CORS where
  origins := c.allowedOrigins
  headers := c.allowedHeaders
  methods := if c.allowedMethods = defaultCORSMethods then [] else c.allowedMethods
  maxAge := if c.maxAge ≠ 300 * second then c.maxAge else 0

def analyticsFromInternal (a : Types.AnalyticsConfig) : Option Analytics :=
  if !a.enabled then some ⟨some false, none⟩
  else if a.samplingRate ≠ 1 then some ⟨none, some a.samplingRate⟩
  else none

/-- Retries are kept only where there are some. -/
def retriesFromInternal (up : Types.UpstreamFailurePolicy) : Option Retries :=
  if 0 < up.maxRetries then
    some ⟨up.maxRetries + 1, up.retryOnStatuses, up.retryBackoff, up.attemptTimeout,
      up.retryNonIdempotentMethods⟩
  else none

def upstreamErrorFromInternal (fc : Types.FailureConfig) : Option UpstreamError :=
  if fc.effectiveUpstreamPolicy.mode = "fail-open" then
    some ⟨"fail-open", fc.upstream.fallbackStatusCode, fc.upstream.fallbackBody, fc.upstream.fallbackHeaders⟩
  else none

def serviceFromInternal (group : String) (p : Types.PrefixConfig) (svc : Types.ServiceConfig) : Service where
  name := svc.serviceID
  «match» := ⟨"/" ++ group ++ "/" ++ svc.serviceID, svc.methods, svc.host⟩
  upstream := if svc.upstreams ≠ [] then "" else svc.targetURL
  upstreams := svc.upstreams
  loadBalancing := svc.loadBalancing
  circuitBreaker := breakerFromInternal svc
  timeout := svc.timeout
  maxRequestBody := svc.maxBodyBytes
  auth := authFromInternal svc.auth
  stripPathPrefix := if svc.transform.stripPrefix then none else some false
  headers :=
    if svc.transform.addHeaders.entries ≠ [] ∨ svc.transform.hideHeaders ≠ [] then
      some ⟨svc.transform.addHeaders, svc.transform.hideHeaders⟩
    else none
  limits := limitsFromInternal p svc
  cache := svc.cache.bind cacheFromInternal
  retries := retriesFromInternal svc.failure.upstream
  cors := svc.cors.map corsFromInternal
  analytics := analyticsFromInternal svc.analytics
  onUpstreamError := upstreamErrorFromInternal svc.failure

/-! `runtimeFromInternal` keeps only settings that differ from the defaults. -/

def differing {α : Type} [DecidableEq α] (v default zero : α) : α := if v = default then zero else v

def hubFromInternal (p : Types.HubRuntimePolicy) : HubRuntime :=
  let d := Types.defaultRuntimePolicy.hub
  { apiKeyPattern := differing p.apiKeyPattern d.apiKeyPattern ""
    corsHeaders := differing p.corsAllowedHeaders d.corsAllowedHeaders []
    corsMethods := differing p.corsAllowedMethods d.corsAllowedMethods []
    corsMaxAge := differing p.corsPreflightMaxAge d.corsPreflightMaxAge 0
    readTimeout := differing p.httpReadTimeout d.httpReadTimeout 0
    writeTimeout := differing p.httpWriteTimeout d.httpWriteTimeout 0
    shutdownTimeout := differing p.httpShutdownTimeout d.httpShutdownTimeout 0 }

def edgeFromInternal (p : Types.EdgeRuntimePolicy) : EdgeRuntime :=
  let d := Types.defaultRuntimePolicy.edge
  { leaseSize := differing p.rateLeaseSize d.rateLeaseSize 0
    leaseLowWaterPct := differing p.rateLowWaterPct d.rateLowWaterPct 0
    analyticsBufferSize := differing p.analyticsBufferSize d.analyticsBufferSize 0
    analyticsPublishTimeout := differing p.analyticsPublishTimeout d.analyticsPublishTimeout 0
    cacheMaxObjectBytes := differing p.cacheMaxObjectBytes d.cacheMaxObjectBytes 0
    upstreamTimeout := differing p.upstreamClientTimeout d.upstreamClientTimeout 0
    upstreamMaxIdleConns := differing p.upstreamMaxIdleConns d.upstreamMaxIdleConns 0
    upstreamIdleConnTimeout := differing p.upstreamIdleConnTimeout d.upstreamIdleConnTimeout 0
    readTimeout := differing p.httpReadTimeout d.httpReadTimeout 0
    writeTimeout := differing p.httpWriteTimeout d.httpWriteTimeout 0
    idleTimeout := differing p.httpIdleTimeout d.httpIdleTimeout 0 }

def analyticsRuntimeFromInternal (p : Types.AnalyticsRuntimePolicy) : AnalyticsRuntime :=
  let d := Types.defaultRuntimePolicy.analytics
  { natsSubject := differing p.natsSubject d.natsSubject ""
    natsQueue := differing p.natsQueue d.natsQueue ""
    defaultEventsLimit := differing p.defaultEventsLimit d.defaultEventsLimit 0
    maxEventsLimit := differing p.maxEventsLimit d.maxEventsLimit 0
    maxEventsOffset := differing p.maxEventsOffset d.maxEventsOffset 0
    defaultSummaryLimit := differing p.defaultSummaryLimit d.defaultSummaryLimit 0
    maxSummaryLimit := differing p.maxSummaryLimit d.maxSummaryLimit 0
    readTimeout := differing p.readTimeout d.readTimeout 0
    writeTimeout := differing p.writeTimeout d.writeTimeout 0
    idleTimeout := differing p.idleTimeout d.idleTimeout 0
    configFetchTimeout := differing p.configFetchTimeout d.configFetchTimeout 0
    shutdownTimeout := differing p.shutdownTimeout d.shutdownTimeout 0 }

def runtimeFromInternal (rp : Types.RuntimePolicy) : Runtime :=
  ⟨hubFromInternal rp.effective.hub, edgeFromInternal rp.effective.edge,
    analyticsRuntimeFromInternal rp.effective.analytics⟩

def fromInternal (cfg : Types.GatewayConfig) : File where
  version := version
  services := cfg.prefixes.flatMap fun p => p.services.map (serviceFromInternal (trimSlashes p.name) p)
  descriptors := cfg.descriptors.map fun d => ⟨d.domain, entriesFromInternal d.entries⟩
  runtime := runtimeFromInternal cfg.runtime

end Gate.Config
