import Gate.Spec.Ledger

/-! The parts of the runtime config (`packages/common/types`) that rate limiting reads,
with the lookups over them. -/

namespace Gate

structure TierConfig where
  tierID : String
  quota : ℕ
  algorithm : Algo
  rate : ℚ
  deriving DecidableEq, Repr

structure LimitSpec where
  id : String
  algorithm : Algo
  quota : ℤ
  window : ℤ
  rate : ℚ
  shadow : Bool
  deriving DecidableEq, Repr

structure OrgLimit where
  quota : ℤ
  window : ℤ
  deriving DecidableEq, Repr

structure LeasePolicy where
  mode : String
  horizon : ℤ
  min : ℤ
  max : ℤ
  deriving DecidableEq, Repr

def defaultLeaseHorizon : ℤ := 2 * second
def defaultLeaseMin : ℤ := 1

def LeasePolicy.adaptive (p : LeasePolicy) : Bool := p.mode != "fixed"

def LeasePolicy.effectiveHorizon (p : LeasePolicy) : ℤ :=
  if 0 < p.horizon then p.horizon else defaultLeaseHorizon

/-- The map of floors, as its entries. -/
structure GlobalLimit where
  floors : List (String × ℚ)
  deriving DecidableEq, Repr

structure ServiceConfig where
  serviceID : String
  tiers : List TierConfig
  safetyTier : Option TierConfig
  /-- "" means `api_key` -/
  authType : String
  limits : List LimitSpec
  org : Option OrgLimit
  lease : LeasePolicy
  global : Option GlobalLimit
  deriving DecidableEq, Repr

structure PrefixConfig where
  name : String
  quotaPeriod : ℤ
  services : List ServiceConfig
  deriving DecidableEq, Repr

/-- One entry of a descriptor tree; an empty value matches every value. -/
inductive DescriptorEntry where
  | mk (key value : String) (limit : Option LimitSpec) (entries : List DescriptorEntry)

def DescriptorEntry.key : DescriptorEntry → String | .mk k _ _ _ => k
def DescriptorEntry.value : DescriptorEntry → String | .mk _ v _ _ => v
def DescriptorEntry.limit : DescriptorEntry → Option LimitSpec | .mk _ _ l _ => l
def DescriptorEntry.entries : DescriptorEntry → List DescriptorEntry | .mk _ _ _ es => es

structure DescriptorDomain where
  domain : String
  entries : List DescriptorEntry

structure GatewayConfig where
  prefixes : List PrefixConfig
  descriptors : List DescriptorDomain
  apiKeyPattern : String

/-- The default of `runtime.hub.api_key_pattern`. -/
def defaultKeyPattern : String := "^[A-Za-z0-9_]\x7b3,128\x7d$"

/-- `unicode.IsSpace`. -/
def isSpace (c : Char) : Bool :=
  c.toNat ∈ [9, 10, 11, 12, 13, 32, 0x85, 0xa0, 0x1680, 0x2028, 0x2029, 0x202f, 0x205f, 0x3000] ||
    (0x2000 ≤ c.toNat && c.toNat ≤ 0x200a)

/-- `strings.TrimSpace`. -/
def trimSpace (s : String) : String :=
  String.ofList ((s.toList.dropWhile isSpace).reverse.dropWhile isSpace).reverse

def GatewayConfig.findPrefix (cfg : GatewayConfig) (name : String) : Option PrefixConfig :=
  if trimSpace name = "" then none else cfg.prefixes.find? fun p => p.name = trimSpace name

def GatewayConfig.findService (cfg : GatewayConfig) (name service : String) :
    Option (PrefixConfig × ServiceConfig) := do
  let p ← cfg.findPrefix name
  let s ← p.services.find? fun s => s.serviceID = trimSpace service
  return (p, s)

def findLimit (svc : ServiceConfig) (id : String) : Option LimitSpec :=
  svc.limits.find? fun l => l.id = id

def findTier (svc : ServiceConfig) (tierID : String) : Option TierConfig :=
  match svc.tiers.find? fun t => t.tierID = tierID with
  | some t => some t
  | none => svc.safetyTier.filter fun t => t.tierID = tierID

end Gate
