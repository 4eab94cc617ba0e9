import Gate.Spec.Checks
import Gate.Spec.Transfers
import Gate.Spec.Validate

/-! Who a caller is: the edge's authentication (`packages/edge/auth.go`), which hashes every
identity on arrival (`packages/keys`), and the hub's answer to a key (`ControlPlane.ResolveKey`). -/

namespace Gate

/-- `regexp.MatchString` with a pattern that may not compile. -/
def matchString (lib : Library) (pattern s : String) : Bool :=
  match lib.compileRegexp pattern with
  | .ok m => m s
  | .error _ => false

/-- `ControlPlane.ResolveKey`: the key's tier, "" when it has none. -/
def resolveKey (env : HubEnv) (cfg : GatewayConfig) (pfx apiKey : String) : Except Code String :=
  if (cfg.findPrefix pfx).isNone then .error .notFound
  else if !validKey env cfg apiKey then .error .invalidArgument
  else match env.tier pfx apiKey with
  | none => .error .unavailable
  | some tier => .ok tier

/-- `keys.Hash`; `sum` is SHA-256. -/
def Keys.hash (sum : String → Vector UInt8 32) (raw : String) : String :=
  String.ofList ((sum raw).toList.flatMap hexByte)

namespace Edge

/-- What authentication reads besides the config and the request. -/
structure AuthEnv where
  lib : Library
  sum : String → Vector UInt8 32
  /-- `TierCache.Get` -/
  tiers : String → String → Option String
  /-- `TierCache.Stale` -/
  stale : String → String → ℤ → Option String
  /-- `jwt.verify`: the string claims of a token it accepts -/
  verify : Types.JWTConfig → String → Option (String → Option String)

structure Credentials where
  /-- `X-API-Key` -/
  apiKey : String
  bearer : Option String
  clientIP : String

inductive Refusal where
  | missingKey
  | invalidKey
  | tierLookupFailed
  | missingToken
  | invalidToken
  | tierNotAllowed
  deriving DecidableEq, Repr

def Refusal.status : Refusal → ℕ
  | .missingKey | .invalidKey | .missingToken | .invalidToken => 401
  | .tierLookupFailed => 503
  | .tierNotAllowed => 403

def Refusal.code : Refusal → String
  | .missingKey => "missing_api_key"
  | .invalidKey => "invalid_api_key"
  | .tierLookupFailed => "tier_lookup_failed"
  | .missingToken => "missing_token"
  | .invalidToken => "invalid_token"
  | .tierNotAllowed => "tier_not_allowed"

/-- A routed request. -/
structure Route where
  scope : String
  service : String
  svc : Types.ServiceConfig
  pfx : Option Types.PrefixConfig

/-- The pattern that both sides check keys against. -/
def keyPattern (cfg : Types.GatewayConfig) : String :=
  if cfg.runtime.hub.apiKeyPattern = "" then defaultKeyPattern else cfg.runtime.hub.apiKeyPattern

/-- The hub's key pattern, applied at the edge; one that does not compile gives way to the default. -/
def validKey (lib : Library) (cfg : Types.GatewayConfig) (key : String) : Bool :=
  match lib.compileRegexp (keyPattern cfg) with
  | .ok m => m key
  | .error _ => matchString lib defaultKeyPattern key

def defaultTier (svc : Types.ServiceConfig) : String :=
  if svc.failure.hub.defaultTier ≠ "" then svc.failure.hub.defaultTier
  else match svc.tiers with
  | [t] => t.tierID
  | _ => ""

/-- The tier cache's answer or, when the hub is unreachable, what the service's policy allows. -/
def resolveTier (a : AuthEnv) (route : Route) (key : String) : Option String :=
  match a.tiers route.scope key with
  | some tier => some tier
  | none =>
    let p := route.svc.failure.effectiveHubPolicy
    let default := if p.defaultTier = "" then none else some p.defaultTier
    if p.tierLookupStrategy = "default-tier" then default
    else if p.tierLookupStrategy = "stale-or-default" then
      (a.stale route.scope key p.staleTierMaxAge).or default
    else none

/-- The caller's identity, tier and org. -/
structure Caller where
  id : String
  tier : String
  org : String

def apiKey (a : AuthEnv) (cfg : Types.GatewayConfig) (route : Route) (raw : String) : Except Refusal Caller :=
  if raw = "" then .error .missingKey
  else if !validKey a.lib cfg raw then .error .invalidKey
  else match resolveTier a route (Keys.hash a.sum raw) with
  | none => .error .tierLookupFailed
  | some tier =>
    -- never issued, or revoked
    if tier = "" then .error .invalidKey else .ok ⟨Keys.hash a.sum raw, tier, ""⟩

/-- A JWT's caller is its issuer and subject. A service of type `jwt` has its settings. -/
def bearerToken (a : AuthEnv) (route : Route) (bearer : Option String) : Except Refusal Caller :=
  match bearer.filter (· ≠ ""), route.svc.auth.jwt with
  | none, _ => .error .missingToken
  | some _, none => .error .invalidToken
  | some raw, some jwt =>
    match a.verify jwt raw with
    | none => .error .invalidToken
    | some claims =>
      let sub := (claims "sub").getD ""
      let claimed := if jwt.tierClaim = "" then "" else (claims jwt.tierClaim).getD ""
      let org := match route.svc.org with
        | some o => if o.claim = "" then "" else (claims o.claim).getD ""
        | none => ""
      if sub = "" then .error .invalidToken
      else .ok ⟨Keys.hash a.sum ("jwt:" ++ (claims "iss").getD "" ++ ":" ++ sub),
        if claimed = "" then defaultTier route.svc else claimed, org⟩

def authenticate (a : AuthEnv) (cfg : Types.GatewayConfig) (route : Route) (c : Credentials) :
    Except Refusal RequestState := do
  let caller ←
    if route.svc.authType = "jwt" then bearerToken a route c.bearer
    else if route.svc.authType = "none" then
      .ok ⟨Keys.hash a.sum ("ip:" ++ c.clientIP), defaultTier route.svc, ""⟩
    else apiKey a cfg route c.apiKey
  match getTier route.svc caller.tier with
  | none => .error .tierNotAllowed
  | some tier => return {
      scope := route.scope
      service := route.service
      svc := route.svc
      pfx := route.pfx
      key := caller.id
      tier := tier
      org := caller.org
      clientIP := c.clientIP }

/-- The subjects the edge sends to the hub for a request: the caller's in `ResolveKey`, then
those of the lease requests for its checks. -/
def sent (a : AuthEnv) (policy : Types.EdgeRuntimePolicy) (r : HTTPRequest) (st : RequestState) : List String :=
  st.key :: (checks (Keys.hash a.sum) policy r st).map (·.key)

end Edge

end Gate
