import Gate.Spec.Compile

/-! The config file's own checks (`packages/config/validate.go`). `validate` reports every
problem it finds, with the path of the field; a file is accepted when there is none. The line
of a problem, which comes from the document the file was decoded from, is left out. -/

namespace Gate

structure URL where
  scheme : String
  host : String
  path : String
  deriving DecidableEq

/-- What the config packages take from the standard library. -/
structure Library where
  /-- `url.Parse` -/
  parseURL : String → Except String URL
  /-- `url.ParseRequestURI` -/
  parseRequestURI : String → Except String URL
  /-- `regexp.Compile`, with the result's `MatchString` -/
  compileRegexp : String → Except String (String → Bool)
  /-- `%q` -/
  quote : String → String
  /-- `%.2f` -/
  twoDecimals : ℚ → String
  /-- `Duration.String` -/
  durationText : ℤ → String

namespace Config

structure Problem where
  path : String
  msg : String
  deriving DecidableEq

/-- `p.at`, under a condition. -/
def report (bad : Prop) [Decidable bad] (path msg : String) : List Problem :=
  if bad then [⟨path, msg⟩] else []

/-! The names the file may use. -/

def isLower (c : Char) : Bool := 'a' ≤ c && c ≤ 'z'
def isUpper (c : Char) : Bool := 'A' ≤ c && c ≤ 'Z'
def isDigit (c : Char) : Bool := '0' ≤ c && c ≤ '9'
def isAlnum (c : Char) : Bool := isLower c || isUpper c || isDigit c

/-- A first character, then at most `most` more (any number for `none`). -/
def matchName (first rest : Char → Bool) (most : Option ℕ) (s : String) : Bool :=
  match s.toList with
  | [] => false
  | c :: cs => first c && cs.all rest && (most.map fun n => decide (cs.length ≤ n)).getD true

/-- `^[a-z0-9][a-z0-9-]{0,62}$` -/
def nameRe : String → Bool :=
  matchName (fun c => isLower c || isDigit c) (fun c => isLower c || isDigit c || c = '-') (some 62)

/-- `^[A-Za-z0-9][A-Za-z0-9._-]*$` -/
def segmentRe : String → Bool :=
  matchName isAlnum (fun c => isAlnum c || c = '.' || c = '_' || c = '-') none

/-- `^[A-Za-z0-9][A-Za-z0-9_-]{0,63}$` -/
def tierRe : String → Bool :=
  matchName isAlnum (fun c => isAlnum c || c = '_' || c = '-') (some 63)

/-- The submatches of `\{([a-z]+)\}`; `pending` holds the letters since an open brace. -/
def cacheTokensIn : Option (List Char) → List Char → List String
  | _, [] => []
  | pending, c :: cs =>
    if c = '\x7b' then cacheTokensIn (some []) cs
    else match pending with
    | none => cacheTokensIn none cs
    | some letters =>
      if isLower c then cacheTokensIn (some (letters ++ [c])) cs
      else if c = '\x7d' ∧ letters ≠ [] then String.ofList letters :: cacheTokensIn none cs
      else cacheTokensIn none cs

def cacheTokens : List String := ["method", "path", "query", "key", "encoding"]
def costMethods : List String := ["GET", "POST", "PUT", "DELETE", "*"]
def upstreamModes : List String := ["fail-closed", "fail-open"]
def balancers : List String := ["", "round_robin", "least_requests"]
def authTypes : List String := ["api_key", "jwt", "none"]
def httpMethods : List String := ["GET", "HEAD", "POST", "PUT", "PATCH", "DELETE", "OPTIONS"]
def algorithms : List Algo := [.fixedWindow, .slidingWindow, .tokenBucket]
def modes : List String := ["", "enforce", "shadow"]
def subjects : List String := ["", "key", "client_ip", "service"]

section
variable (lib : Library)

/-! ### Budgets and algorithms, shared by tiers, limits and descriptors -/

def badAlgorithm (a : Algo) : String :=
  "must be fixed_window, sliding_window or token_bucket (got " ++ lib.quote a.text ++ ")"

def validateAlgorithm (path : String) (a : Algo) : List Problem :=
  report (a ≠ .unset ∧ a ∉ algorithms) (path ++ ".algorithm") (badAlgorithm lib a)

def validateMode (path mode : String) : List Problem :=
  report (mode ∉ modes) (path ++ ".mode") ("must be enforce or shadow (got " ++ lib.quote mode ++ ")")

/-- A token bucket has a rate and a burst; the windowed algorithms have requests. -/
def validateBudget (path : String) (algo : Algo) (requests : UInt32) (rate : ℚ) (burst : UInt32) :
    List Problem :=
  if algo = .tokenBucket then
    report (rate ≤ 0) (path ++ ".rate") "is required for token_bucket, e.g. 20/s" ++
    report (burst = 0) (path ++ ".burst") "is required for token_bucket (the most admitted at once)" ++
    report (requests ≠ 0) (path ++ ".requests") "does not apply to token_bucket; use rate and burst"
  else
    report (requests = 0) (path ++ ".requests") "must be greater than 0" ++
    report (rate ≠ 0 ∨ burst ≠ 0) path "rate and burst apply only to algorithm token_bucket"

/-! ### Descriptors -/

def validateDescriptorLimit (ep : String) (l : DescriptorLimit) : List Problem :=
  validateAlgorithm lib (ep ++ ".limit") l.algorithm ++
  validateBudget (ep ++ ".limit") l.algorithm l.requests l.rate l.burst ++
  report (l.algorithm ≠ .tokenBucket ∧ l.window < second) (ep ++ ".limit.window")
    "is required and at least 1s, e.g. 1m"

/-- `strings.ContainsAny(s, "/=")` -/
def hasSeparator (s : String) : Bool := s.toList.any fun c => c = '/' || c = '='

/-- The entry's own name; `seen` has those before it on its level. -/
def validateEntryName (path ep : String) (seen : List (String × ℕ)) (key value : String) : List Problem :=
  if key = "" then [⟨ep ++ ".key", "is required"⟩]
  else if hasSeparator (key ++ value) then [⟨ep, "key and value must not contain / or ="⟩]
  else match seen.lookup (key ++ "=" ++ value) with
  | some j => [⟨ep, "duplicates " ++ indexed path j⟩]
  | none => []

def seeEntry (seen : List (String × ℕ)) (i : ℕ) (key value : String) : List (String × ℕ) :=
  if key = "" ∨ hasSeparator (key ++ value) then seen else (key ++ "=" ++ value, i) :: seen

mutual

/-- Everything about an entry but its own name. -/
def validateEntry (ep : String) : DescriptorEntry → List Problem
  | .mk _ _ limit mode entries =>
    validateMode lib ep mode ++
    (match limit with
      | some l => validateDescriptorLimit lib ep l
      | none => report (entries.length = 0) ep "has neither a limit nor nested entries") ++
    validateEntries (ep ++ ".entries") [] 0 entries

def validateEntries (path : String) (seen : List (String × ℕ)) (i : ℕ) :
    List DescriptorEntry → List Problem
  | [] => []
  | .mk key value limit mode entries :: es =>
    validateEntryName path (indexed path i) seen key value ++
    validateEntry (indexed path i) (.mk key value limit mode entries) ++
    validateEntries path (seeEntry seen i key value) (i + 1) es

end

def validateDomains (domains : List (String × ℕ)) (i : ℕ) : List DescriptorDomain → List Problem
  | [] => []
  | d :: ds =>
    (if d.domain = "" then [⟨indexed "descriptors" i ++ ".domain", "is required"⟩]
      else match domains.lookup d.domain with
      | some j => [⟨indexed "descriptors" i ++ ".domain",
          lib.quote d.domain ++ " is already used by " ++ indexed "descriptors" j⟩]
      | none => []) ++
    report (d.entries.length = 0) (indexed "descriptors" i ++ ".entries")
      "list at least one entry, e.g. \x7bkey: remote_address, limit: \x7brequests: 100, window: 1s\x7d\x7d" ++
    validateEntries lib (indexed "descriptors" i ++ ".entries") [] 0 d.entries ++
    validateDomains ((d.domain, i) :: domains) (i + 1) ds

def validateDescriptors (ds : List DescriptorDomain) : List Problem := validateDomains lib [] 0 ds

/-! ### Limits -/

def validateTier (path : String) (l : Limits) (name : String) : List Problem :=
  let t := (l.tiers.lookup name).getD {}
  let tp := path ++ ".tiers." ++ name
  report (tierRe name = false) tp
    ("tier name " ++ lib.quote name ++ " must be letters, digits, dashes or underscores") ++
  validateBudget tp (orAlgo t.algorithm l.algorithm) t.requests t.rate t.burst ++
  validateAlgorithm lib tp t.algorithm ++
  t.cost.entries.flatMap fun e =>
    report (e.1 ∉ costMethods) (tp ++ ".cost." ++ e.1)
      ("unknown method " ++ lib.quote e.1 ++ " (use GET, POST, PUT, DELETE or *)") ++
    report (e.2 = 0) (tp ++ ".cost." ++ e.1) "must be at least 1"

def validateLeasing (path : String) (lp : Leasing) : List Problem :=
  report (lp.mode ≠ "" ∧ lp.mode ≠ "adaptive" ∧ lp.mode ≠ "fixed") (path ++ ".leasing.mode")
    ("must be adaptive or fixed (got " ++ lib.quote lp.mode ++ ")") ++
  report (lp.min < 0 ∨ lp.max < 0) (path ++ ".leasing") "min and max must not be negative" ++
  report (lp.max > 0 ∧ lp.min > lp.max) (path ++ ".leasing.min")
    (toString lp.min ++ " is more than max (" ++ toString lp.max ++ ")")

def validateOrg (path : String) (o : OrgLimit) : List Problem :=
  report (o.requests = 0) (path ++ ".org.requests") "must be greater than 0" ++
  report (o.window ≠ 0 ∧ o.window < second) (path ++ ".org.window") "must be at least 1s"

/-- A limit's name; `seen` has the tiers (as `none`) and the limits before it. -/
def validateExtraName (ap : String) (seen : List (String × Option ℕ)) (name : String) : List Problem :=
  if nameRe name = false then
    [⟨ap ++ ".name", lib.quote name ++ " must be lowercase letters, digits and dashes"⟩]
  else match seen.lookup name with
  | some (some j) => [⟨ap ++ ".name", lib.quote name ++ " is already used by " ++ indexed "also" j⟩]
  | some none => [⟨ap ++ ".name", lib.quote name ++ " is already the name of a tier"⟩]
  | none => []

def validateExtra (ap : String) (a : ExtraLimit) : List Problem :=
  report (a.per ∉ subjects) (ap ++ ".per")
    ("must be key, client_ip or service (got " ++ lib.quote a.per ++ ")") ++
  validateAlgorithm lib ap a.algorithm ++
  validateMode lib ap a.mode ++
  report (a.window ≠ 0 ∧ a.window < second) (ap ++ ".window") "must be at least 1s" ++
  validateBudget ap a.algorithm a.requests a.rate a.burst

def validateAlso (path : String) (seen : List (String × Option ℕ)) (i : ℕ) : List ExtraLimit → List Problem
  | [] => []
  | a :: as =>
    validateExtraName lib (indexed (path ++ ".also") i) seen a.name ++
    validateExtra lib (indexed (path ++ ".also") i) a ++
    validateAlso path ((a.name, some i) :: seen) (i + 1) as

def validateGlobal (path : String) (l : Limits) (tiers : List String) (g : Global) : List Problem :=
  let sum := (g.floors.entries.map (·.2)).sum
  (g.floors.entries.flatMap fun e =>
    report (nameRe e.1 = false) (path ++ ".global.floors." ++ e.1)
      ("region name " ++ lib.quote e.1 ++ " must be lowercase letters, digits and dashes") ++
    report (e.2 < 0 ∨ e.2 > 1) (path ++ ".global.floors." ++ e.1) "must be between 0 and 1") ++
  report (g.floors.entries = []) (path ++ ".global.floors")
    "list every region, e.g. \x7beu-west: 0.3, us-east: 0.3\x7d" ++
  report (sum > 1) (path ++ ".global.floors")
    ("shares sum to " ++ lib.twoDecimals sum ++ "; they must sum to at most 1") ++
  (tiers.flatMap fun name =>
    let a := orAlgo ((l.tiers.lookup name).getD {}).algorithm l.algorithm
    report (a ≠ .unset ∧ a ≠ .fixedWindow) (path ++ ".tiers." ++ name ++ ".algorithm")
      "global quotas support fixed_window only") ++
  report (l.org ≠ none) (path ++ ".org")
    "an org budget cannot be combined with global (multi-region) quotas"

def validateCost (path : String) (c : Cost) : List Problem :=
  report (trimSpace c.actualHeader = "") (path ++ ".cost.actual_header")
    "is required: the response header (or trailer) carrying the actual cost" ++
  report (c.onMissing ≠ "" ∧ c.onMissing ≠ "estimate" ∧ c.onMissing ≠ "refund") (path ++ ".cost.on_missing")
    ("must be estimate or refund (got " ++ lib.quote c.onMissing ++ ")") ++
  report (c.estimate < 0 ∨ c.maxDebt < 0) (path ++ ".cost") "estimate and max_debt must not be negative"

/-- The problems of an optional section. -/
def optional {α : Type} (check : α → List Problem) (o : Option α) : List Problem := (o.map check).getD []

def validateV3Limits (path : String) (l : Limits) (tiers : List String) : List Problem :=
  validateAlgorithm lib path l.algorithm ++
  validateMode lib path l.mode ++
  optional (validateLeasing lib path) l.leasing ++
  optional (validateOrg path) l.org ++
  validateAlso lib path (tiers.map fun t => (t, none)) 0 l.also ++
  optional (validateGlobal lib path l tiers) l.global ++
  optional (validateCost lib path) l.cost

def validateLimits (path : String) (l : Limits) : List Problem :=
  let names := sortedTierNames l.tiers
  report (l.window ≤ 0) (path ++ ".window") "is required, e.g. 1m" ++
  report (l.tiers.entries = []) (path ++ ".tiers")
    "define at least one tier, e.g. free: \x7brequests: 100\x7d" ++
  names.flatMap (validateTier lib path l) ++
  report (l.defaultTier ≠ "" ∧ l.tiers.lookup l.defaultTier = none) (path ++ ".default_tier")
    (lib.quote l.defaultTier ++ " is not one of the tiers (" ++ ", ".intercalate names ++ ")") ++
  optional (fun fb : Fallback => report (fb.allow = 0) (path ++ ".when_hub_unavailable.allow")
    "must be greater than 0 (omit when_hub_unavailable to reject with 503)") l.whenHubUnavailable ++
  report (l.leaseSize < 0) (path ++ ".lease_size") "must not be negative" ++
  validateV3Limits lib path l names

/-! ### Services -/

def isHTTP (u : URL) : Prop := u.scheme = "http" ∨ u.scheme = "https"

instance (u : URL) : Decidable (isHTTP u) := inferInstanceAs (Decidable (_ ∨ _))

/-- The `check` of `validateUpstreams`: the URL, when it is one with a host. -/
def upstreamURL (raw : String) : Option URL :=
  match lib.parseURL raw with
  | .error _ => none
  | .ok u => if isHTTP u ∧ u.host ≠ "" then some u else none

def badUpstream (field raw : String) : Problem :=
  ⟨field, lib.quote raw ++ " must be an http(s) URL with a host"⟩

/-- `strings.TrimSuffix(s, "/")` -/
def trimSlash (s : String) : String :=
  if s.toList.getLast? = some '/' then String.ofList s.toList.dropLast else s

/-- The replicas from `i` on; `base` is the path of the first. -/
def validateReplicas (path : String) : ℕ → String → List String → List Problem
  | _, _, [] => []
  | i, base, raw :: rest =>
    match upstreamURL lib raw with
    | none => badUpstream lib (indexed (path ++ ".upstreams") i) raw :: validateReplicas path (i + 1) base rest
    | some u =>
      if i = 0 then validateReplicas path 1 (trimSlash u.path) rest
      else
        report (trimSlash u.path ≠ base) (indexed (path ++ ".upstreams") i)
          ("must have the same path as upstreams[0] (" ++ lib.quote base ++
            ") so retries can move between replicas") ++
        validateReplicas path (i + 1) base rest

def validateUpstreams (path : String) (s : Service) : List Problem :=
  if s.upstream = "" ∧ s.upstreams = [] then
    [⟨path ++ ".upstream", "is required, e.g. http://" ++ orDefault s.name "orders" ++
      ":8080 (or upstreams: [...] for replicas)"⟩]
  else if s.upstream ≠ "" ∧ s.upstreams ≠ [] then
    [⟨path ++ ".upstreams", "set upstream or upstreams, not both"⟩]
  else
    (if s.upstream ≠ "" ∧ upstreamURL lib s.upstream = none
      then [badUpstream lib (path ++ ".upstream") s.upstream] else []) ++
    validateReplicas lib path 0 "" s.upstreams ++
    report (s.loadBalancing ∉ balancers) (path ++ ".load_balancing")
      ("must be round_robin or least_requests (got " ++ lib.quote s.loadBalancing ++ ")") ++
    optional (fun cb : CircuitBreaker =>
      report (cb.failures < 1) (path ++ ".circuit_breaker.failures") "must be at least 1" ++
      report (cb.cooldown ≤ 0) (path ++ ".circuit_breaker.cooldown") "is required, e.g. 10s")
      s.circuitBreaker

def jwksProblem (path : String) (jwt : Option JWT) : List Problem :=
  match jwt with
  | none => [⟨path ++ ".auth.jwt.jwks_url", "is required for jwt auth"⟩]
  | some j =>
    if j.jwksURL = "" then [⟨path ++ ".auth.jwt.jwks_url", "is required for jwt auth"⟩]
    else match lib.parseURL j.jwksURL with
    | .ok u => report (¬ isHTTP u) (path ++ ".auth.jwt.jwks_url")
        (lib.quote j.jwksURL ++ " must be an http(s) URL")
    | .error _ => [⟨path ++ ".auth.jwt.jwks_url", lib.quote j.jwksURL ++ " must be an http(s) URL"⟩]

def validateAuth (path : String) (s : Service) : List Problem :=
  match s.auth with
  | none => []
  | some a =>
    if a.type ∉ authTypes then
      [⟨path ++ ".auth.type", "must be api_key, jwt or none (got " ++ lib.quote a.type ++ ")"⟩]
    else
      let hasDefault := s.limits.defaultTier ≠ "" ∨ s.limits.tiers.entries.length = 1
      (if a.type = "jwt" then
        jwksProblem lib path a.jwt ++
        report ((a.jwt.map (·.tierClaim)).getD "" = "" ∧ ¬ hasDefault) (path ++ ".limits.default_tier")
          "is required for jwt auth without auth.jwt.tier_claim"
      else if a.type = "none" then
        report (¬ hasDefault) (path ++ ".limits.default_tier")
          "is required for auth type none (callers are limited by client IP on that tier)"
      else []) ++
      report (a.type ≠ "jwt" ∧ a.jwt ≠ none) (path ++ ".auth.jwt") "only applies to auth type jwt"

def validateMethods (path : String) (i : ℕ) : List String → List Problem
  | [] => []
  | m :: ms =>
    report (m ∉ httpMethods) (indexed (path ++ ".match.methods") i)
      (lib.quote m ++ " is not an HTTP method (use upper case, e.g. GET)") ++
    validateMethods path (i + 1) ms

def validateStatuses (path : String) (i : ℕ) : List ℤ → List Problem
  | [] => []
  | code :: codes =>
    report (code < 100 ∨ code > 599) (indexed (path ++ ".retries.statuses") i)
      (toString code ++ " is not an HTTP status code") ++
    validateStatuses path (i + 1) codes

/-- The sections after `limits`. -/
def validateSections (path : String) (s : Service) : List Problem :=
  optional (fun c : Cache =>
    report (c.ttl ≤ 0) (path ++ ".cache.ttl") "is required, e.g. 30s" ++
    (cacheTokensIn none c.key.toList).flatMap fun t =>
      report (t ∉ cacheTokens) (path ++ ".cache.key")
        ("unknown token \x7b" ++ t ++
          "\x7d (use \x7bmethod\x7d \x7bpath\x7d \x7bquery\x7d \x7bkey\x7d \x7bencoding\x7d)")) s.cache ++
  optional (fun r : Retries =>
    report (r.attempts < 1) (path ++ ".retries.attempts") "must be at least 1 (1 = no retry)" ++
    validateStatuses path 0 r.statuses) s.retries ++
  optional (fun c : CORS =>
    report (c.origins = []) (path ++ ".cors.origins") "list at least one origin, or [\"*\"]") s.cors ++
  optional (fun a : Analytics => optional (fun r : ℚ =>
    report (r < 0 ∨ r > 1) (path ++ ".analytics.sample_rate") "must be between 0 and 1") a.sampleRate)
    s.analytics ++
  optional (fun e : UpstreamError =>
    report (e.mode ∉ upstreamModes) (path ++ ".on_upstream_error.mode")
      ("must be fail-closed or fail-open (got " ++ lib.quote e.mode ++ ")") ++
    report (e.status ≠ 0 ∧ (e.status < 100 ∨ e.status > 599)) (path ++ ".on_upstream_error.status")
      (toString e.status ++ " is not an HTTP status code")) s.onUpstreamError

structure GroupInfo where
  first : ℕ
  window : ℤ
  lease : ℤ

/-- What the services before this one used. -/
structure Seen where
  names : List (String × ℕ) := []
  prefixes : List (String × ℕ) := []
  groups : List (String × GroupInfo) := []

/-- Is this a path of two segments? -/
def Service.twoSegments (s : Service) : Bool :=
  match s.segments with
  | [a, b] => s.match.pathPrefix.toList.head? = some '/' && segmentRe a && segmentRe b
  | _ => false

def Service.last (s : Service) : String := s.segments.getD 1 ""

def validateName (path : String) (seen : Seen) (s : Service) : List Problem :=
  if s.name = "" then [⟨path ++ ".name", "is required"⟩]
  else if nameRe s.name = false then
    [⟨path ++ ".name", lib.quote s.name ++ " must be lowercase letters, digits and dashes"⟩]
  else match seen.names.lookup s.name with
  | some j => [⟨path ++ ".name", lib.quote s.name ++ " is already used by " ++ indexed "services" j⟩]
  | none => []

def validatePath (path : String) (seen : Seen) (s : Service) : List Problem :=
  let pp := s.match.pathPrefix
  let field := path ++ ".match.path_prefix"
  if pp = "" then [⟨field, "is required, e.g. /v1/" ++ orDefault s.name "orders"⟩]
  else if s.twoSegments = false then
    [⟨field, lib.quote pp ++ " must be two path segments, /<group>/<service>"⟩]
  else if s.name ≠ "" ∧ s.last ≠ s.name then
    [⟨field, lib.quote pp ++ " must end with the service name (/" ++ s.group ++ "/" ++ s.name ++ ")"⟩]
  else match seen.prefixes.lookup pp with
  | some j => [⟨field, lib.quote pp ++ " is already used by " ++ indexed "services" j⟩]
  | none => []

/-- Does this service take part in its group's shared window? -/
def Service.grouped (s : Service) : Prop :=
  s.match.pathPrefix ≠ "" ∧ s.segments.length = 2 ∧ 0 < s.limits.window

instance (s : Service) : Decidable s.grouped := inferInstanceAs (Decidable (_ ∧ _))

/-- The runtime keeps one quota window and lease size per group. -/
def validateGroup (path : String) (seen : Seen) (s : Service) : List Problem :=
  if s.grouped then
    match seen.groups.lookup s.group with
    | none => []
    | some info =>
      report (info.window ≠ s.limits.window) (path ++ ".limits.window")
        (lib.durationText s.limits.window ++ " differs from " ++ indexed "services" info.first ++ " (" ++
          lib.durationText info.window ++ "); services under /" ++ s.group ++ " must share a window") ++
      report (info.lease ≠ s.limits.leaseSize) (path ++ ".limits.lease_size")
        (toString s.limits.leaseSize ++ " differs from " ++ indexed "services" info.first ++ " (" ++
          toString info.lease ++ "); services under /" ++ s.group ++ " must share a lease size")
  else []

def validateService (seen : Seen) (i : ℕ) (s : Service) : List Problem :=
  let path := indexed "services" i
  validateName lib path seen s ++
  validatePath lib path seen s ++
  validateUpstreams lib path s ++
  validateAuth lib path s ++
  validateMethods lib path 0 s.match.methods ++
  report (s.limits.maxConcurrent < 0) (path ++ ".limits.max_concurrent") "must not be negative" ++
  report (s.maxRequestBody < 0) (path ++ ".max_request_body") "must not be negative" ++
  validateLimits lib (path ++ ".limits") s.limits ++
  validateGroup lib path seen s ++
  validateSections lib path s

/-- What is kept of a service for those after it. -/
def Seen.add (seen : Seen) (i : ℕ) (s : Service) : Seen where
  names := if s.name = "" ∨ nameRe s.name = false then seen.names else (s.name, i) :: seen.names
  prefixes :=
    if s.match.pathPrefix = "" ∨ s.twoSegments = false ∨ (s.name ≠ "" ∧ s.last ≠ s.name) then seen.prefixes
    else (s.match.pathPrefix, i) :: seen.prefixes
  groups :=
    if s.grouped ∧ (seen.groups.lookup s.group).isNone then
      (s.group, ⟨i, s.limits.window, s.limits.leaseSize⟩) :: seen.groups
    else seen.groups

def validateServices (seen : Seen) (i : ℕ) : List Service → List Problem
  | [] => []
  | s :: ss => validateService lib seen i s ++ validateServices (seen.add i s) (i + 1) ss

def validatePattern (pattern : String) : List Problem :=
  if pattern = "" then []
  else match lib.compileRegexp pattern with
  | .ok _ => []
  | .error err => [⟨"runtime.hub.api_key_pattern", "invalid regular expression: " ++ err⟩]

def validate (f : File) : List Problem :=
  report (f.version ≠ Config.version) "version"
    ("must be " ++ toString Config.version ++ " (got " ++ toString f.version ++ ")") ++
  report (f.services.length = 0 ∧ f.descriptors.length = 0) "services"
    "at least one service (or a descriptors domain for gate limiter) is required" ++
  validateDescriptors lib f.descriptors ++
  validateServices lib {} 0 f.services ++
  validatePattern lib f.runtime.hub.apiKeyPattern ++
  report (f.runtime.edge.leaseLowWaterPct < 0 ∨ f.runtime.edge.leaseLowWaterPct > 100)
    "runtime.edge.lease_low_water_pct" "must be between 0 and 100"

/-- The file is accepted. -/
def Accepted (f : File) : Prop := validate lib f = []

instance (f : File) : Decidable (Accepted lib f) := inferInstanceAs (Decidable (_ = _))

end

end Config

end Gate
