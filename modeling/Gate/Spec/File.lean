import Gate.Spec.Runtime
import Gate.Spec.Decide

/-! The config file a user writes (`packages/config/schema.go`). Durations and rates are the
parsed values; an algorithm is its name. -/

namespace Gate.Config

/-- The only format version the package reads. -/
def version : ℤ := 2

structure DescriptorLimit where
  algorithm : Algo
  requests : UInt32
  window : ℤ
  rate : ℚ
  burst : UInt32
  deriving DecidableEq

/-- One entry of a descriptor tree. -/
inductive DescriptorEntry where
  | mk (key value : String) (limit : Option DescriptorLimit) (mode : String)
      (entries : List DescriptorEntry)

structure DescriptorDomain where
  domain : String
  entries : List DescriptorEntry

structure Match where
  pathPrefix : String
  methods : List String
  host : String
  deriving DecidableEq

structure CircuitBreaker where
  failures : ℤ
  cooldown : ℤ
  deriving DecidableEq

structure JWT where
  jwksURL : String
  issuer : String
  audience : String
  tierClaim : String
  deriving DecidableEq

structure Auth where
  type : String
  jwt : Option JWT
  deriving DecidableEq

structure Headers where
  add : GoMap String
  hide : List String
  deriving DecidableEq

structure Tier where
  requests : UInt32 := 0
  cost : GoMap UInt8 := ∅
  algorithm : Algo := .unset
  rate : ℚ := 0
  burst : UInt32 := 0
  deriving DecidableEq

structure Global where
  floors : GoMap ℚ
  deriving DecidableEq

structure Leasing where
  mode : String
  horizon : ℤ
  min : ℤ
  max : ℤ
  deriving DecidableEq

structure OrgLimit where
  requests : UInt32
  window : ℤ
  claim : String
  deriving DecidableEq

structure ExtraLimit where
  name : String
  per : String := ""
  algorithm : Algo := .unset
  requests : UInt32 := 0
  window : ℤ := 0
  rate : ℚ := 0
  burst : UInt32 := 0
  mode : String := ""
  deriving DecidableEq

structure Cost where
  actualHeader : String
  estimate : ℤ
  estimateHeader : String
  onMissing : String
  maxDebt : ℤ
  deriving DecidableEq

structure Fallback where
  allow : UInt32
  deriving DecidableEq

structure Limits where
  window : ℤ
  tiers : GoMap Tier
  defaultTier : String := ""
  whenHubUnavailable : Option Fallback := none
  leaseSize : ℤ := 0
  maxConcurrent : ℤ := 0
  algorithm : Algo := .unset
  mode : String := ""
  leasing : Option Leasing := none
  org : Option OrgLimit := none
  also : List ExtraLimit := []
  global : Option Global := none
  cost : Option Cost := none
  deriving DecidableEq

structure Cache where
  ttl : ℤ
  key : String
  deriving DecidableEq

structure Retries where
  attempts : ℤ
  statuses : List ℤ
  backoff : ℤ
  perAttemptTimeout : ℤ
  nonIdempotent : Bool
  deriving DecidableEq

structure CORS where
  origins : List String
  methods : List String
  headers : List String
  maxAge : ℤ
  deriving DecidableEq

structure Analytics where
  enabled : Option Bool
  sampleRate : Option ℚ
  deriving DecidableEq

structure UpstreamError where
  mode : String
  status : ℤ
  body : String
  headers : GoMap String
  deriving DecidableEq

/-- One upstream exposed under a path prefix. -/
structure Service where
  name : String
  «match» : Match
  upstream : String := ""
  upstreams : List String := []
  loadBalancing : String := ""
  circuitBreaker : Option CircuitBreaker := none
  timeout : ℤ := 0
  maxRequestBody : ℤ := 0
  auth : Option Auth := none
  stripPathPrefix : Option Bool := none
  headers : Option Headers := none
  limits : Limits
  cache : Option Cache := none
  retries : Option Retries := none
  cors : Option CORS := none
  analytics : Option Analytics := none
  onUpstreamError : Option UpstreamError := none
  deriving DecidableEq

structure HubRuntime where
  apiKeyPattern : String := ""
  corsHeaders : List String := []
  corsMethods : List String := []
  corsMaxAge : ℤ := 0
  readTimeout : ℤ := 0
  writeTimeout : ℤ := 0
  shutdownTimeout : ℤ := 0
  deriving DecidableEq

structure EdgeRuntime where
  leaseSize : ℤ := 0
  leaseLowWaterPct : ℚ := 0
  analyticsBufferSize : ℤ := 0
  analyticsPublishTimeout : ℤ := 0
  cacheMaxObjectBytes : ℤ := 0
  upstreamTimeout : ℤ := 0
  upstreamMaxIdleConns : ℤ := 0
  upstreamIdleConnTimeout : ℤ := 0
  readTimeout : ℤ := 0
  writeTimeout : ℤ := 0
  idleTimeout : ℤ := 0
  deriving DecidableEq

structure AnalyticsRuntime where
  natsSubject : String := ""
  natsQueue : String := ""
  defaultEventsLimit : ℤ := 0
  maxEventsLimit : ℤ := 0
  maxEventsOffset : ℤ := 0
  defaultSummaryLimit : ℤ := 0
  maxSummaryLimit : ℤ := 0
  readTimeout : ℤ := 0
  writeTimeout : ℤ := 0
  idleTimeout : ℤ := 0
  configFetchTimeout : ℤ := 0
  shutdownTimeout : ℤ := 0
  deriving DecidableEq

structure Runtime where
  hub : HubRuntime := {}
  edge : EdgeRuntime := {}
  analytics : AnalyticsRuntime := {}
  deriving DecidableEq

structure File where
  version : ℤ := Config.version
  services : List Service := []
  descriptors : List DescriptorDomain := []
  runtime : Runtime := {}

/-- `orDefault`, on algorithm names. -/
def orAlgo (v default : Algo) : Algo := if v = .unset then default else v

/-- `orDefault`. -/
def orDefault (v default : String) : String := if v = "" then default else v

/-- `strings.Trim(s, "/")`. -/
def trimSlashes (s : String) : String :=
  String.ofList ((s.toList.dropWhile (· = '/')).reverse.dropWhile (· = '/')).reverse

/-- The segments of a service's path. -/
@[irreducible] def Service.segments (s : Service) : List String := Decide.split '/' (trimSlashes s.match.pathPrefix)

/-- The first path segment of a service's path. -/
def Service.group (s : Service) : String := s.segments.headD ""

/-- The names of a map's keys, sorted. -/
def sortedTierNames (m : GoMap Tier) : List String := m.keys.insertionSort (· ≤ ·)

end Gate.Config
