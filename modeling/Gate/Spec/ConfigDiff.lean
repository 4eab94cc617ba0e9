import Gate.Spec.Checks

/-! What a config update changes (`packages/hub/config_diff.go`): the sections that differ, and the
services whose cached responses an edge has to drop. Go visits a map in any order. -/

namespace Gate

/-- `ConfigInvalidationScope`. -/
structure InvalidationScope where
  pfx : String
  serviceID : String
  mode : String
  reason : String
  deriving DecidableEq, Repr

/-- `configUpdateAnalysis`. -/
structure ConfigUpdateAnalysis where
  changedSections : List String
  responseCache : List InvalidationScope
  warnings : List String
  impactedPrefixes : List String
  impactedServices : List InvalidationScope
  hasQuotaReductionWarning : Bool

def ConfigUpdateAnalysis.empty : ConfigUpdateAnalysis := ⟨[], [], [], [], [], false⟩

abbrev MapEntry (α : Type) := Sigma fun _ : String => α

/-- The order in which `range` visits the entries of a map. -/
structure MapOrder where
  visit : {α : Type} → List (MapEntry α) → List (MapEntry α)
  perm : ∀ {α : Type} (l : List (MapEntry α)), (visit l).Perm l

namespace ConfigDiff

/-- `map[string]struct{}`. -/
abbrev Names := GoMap Unit

def mark (m : Names) (name : String) : Names := m.insert name ()

def scopeKey (scope : InvalidationScope) : String := scope.pfx ++ "|" ++ scope.serviceID

/-- What an earlier scope of the same service leaves empty, a later one fills in. -/
def fillIn (existing scope : InvalidationScope) : InvalidationScope :=
  { existing with
    mode := if existing.mode = "" ∧ scope.mode ≠ "" then scope.mode else existing.mode
    reason := if existing.reason = "" ∧ scope.reason ≠ "" then scope.reason else existing.reason }

def addInvalidationScope (set : GoMap InvalidationScope) (scope : InvalidationScope) : GoMap InvalidationScope :=
  if scope.pfx = "" then set
  else match set.lookup (scopeKey scope) with
    | some existing => set.insert (scopeKey scope) (fillIn existing scope)
    | none => set.insert (scopeKey scope) scope

/-- The map of a list's elements by name; a later one replaces an earlier one. -/
def byName {α : Type} (name : α → String) (l : List α) : GoMap α := l.foldl (fun m x => m.insert (name x) x) ∅

def hasQuotaReductionBetween (old new : Types.ServiceConfig) : Bool :=
  let oldTiers := byName (fun t : Types.TierConfig => t.tierID) old.tiers
  new.tiers.any (fun t => (oldTiers.lookup t.tierID).any fun o => t.quota < o.quota) ||
    match old.safetyTier, new.safetyTier with
    | some o, some n => n.quota < o.quota
    | _, _ => false

/-- `reflect.DeepEqual` of two maps. -/
def sameMap {α : Type} [DecidableEq α] (m m' : GoMap α) : Bool := decide (m.entries.Perm m'.entries)

def sameTransform (a b : Types.TransformConfig) : Bool :=
  a.stripPrefix = b.stripPrefix && sameMap a.addHeaders b.addHeaders && a.hideHeaders = b.hideHeaders

/-- The variables of `analyzeConfigUpdate`. -/
structure State where
  sections : Names
  invalidations : GoMap InvalidationScope
  prefixes : Names
  services : GoMap InvalidationScope
  quotaReduction : Bool

def State.start : State := ⟨∅, ∅, ∅, ∅, false⟩

/-- What is noted for a service that changed. -/
def State.note (st : State) (part : String) (scope : InvalidationScope) : State :=
  { st with
    sections := mark st.sections part
    invalidations := addInvalidationScope st.invalidations scope
    services := st.services.insert (scopeKey scope) scope
    prefixes := mark st.prefixes scope.pfx }

def cacheChanged (o n : Types.ServiceConfig) : Bool := o.cache ≠ n.cache

def behaviorChanged (o n : Types.ServiceConfig) : Bool := !sameTransform o.transform n.transform || o.targetURL ≠ n.targetURL

def tiersChanged (o n : Types.ServiceConfig) : Bool := o.tiers ≠ n.tiers || o.safetyTier ≠ n.safetyTier

/-- The checks of a service that both configs have, in turn. -/
def noteCache (name id : String) (o n : Types.ServiceConfig) (st : State) : State :=
  if cacheChanged o n then st.note "cache" ⟨name, id, "", "cache_config_changed"⟩ else st

def noteBehavior (name id : String) (o n : Types.ServiceConfig) (st : State) : State :=
  if behaviorChanged o n then st.note "services" ⟨name, id, "", "service_behavior_changed"⟩ else st

def noteTiers (name id : String) (o n : Types.ServiceConfig) (st : State) : State :=
  if tiersChanged o n then
    let st := st.note "tiers" ⟨name, id, "", "tiers_changed"⟩
    { st with quotaReduction := st.quotaReduction || hasQuotaReductionBetween o n }
  else st

def noteAnalytics (o n : Types.ServiceConfig) (st : State) : State :=
  if o.analytics ≠ n.analytics then { st with sections := mark st.sections "analytics" } else st

/-- One turn of the loop over the services of a prefix. -/
def diffService (name : String) (newServices : GoMap Types.ServiceConfig) (st : State) (x : MapEntry Types.ServiceConfig) : State :=
  match newServices.lookup x.1 with
  | none => st.note "services" ⟨name, x.1, "mark-expire", "service_removed"⟩
  | some n => noteAnalytics x.2 n (noteTiers name x.1 x.2 n (noteBehavior name x.1 x.2 n (noteCache name x.1 x.2 n st)))

/-- One turn of the loop over the services that a prefix has now. -/
def diffAdded (name : String) (oldServices : GoMap Types.ServiceConfig) (st : State) (x : MapEntry Types.ServiceConfig) : State :=
  if x.1 ∈ oldServices then st
  else { st with sections := mark st.sections "services", prefixes := mark st.prefixes name }

/-- The period and the leasing of a prefix. -/
def diffQuota (name : String) (old new : Types.PrefixConfig) (st : State) : State :=
  if old.quotaPeriod ≠ new.quotaPeriod ∨ old.leasing ≠ new.leasing then
    { st with sections := mark st.sections "prefixes", prefixes := mark st.prefixes name }
  else st

/-- One turn of the loop over the prefixes there were. -/
def diffPrefix (ord : MapOrder) (nextByPrefix : GoMap Types.PrefixConfig) (st : State)
    (x : MapEntry Types.PrefixConfig) : State :=
  match nextByPrefix.lookup x.1 with
  | none =>
    { st with
      sections := mark st.sections "prefixes"
      invalidations := addInvalidationScope st.invalidations ⟨x.1, "", "mark-expire", "prefix_removed"⟩
      prefixes := mark st.prefixes x.1 }
  | some new =>
    let oldServices := byName Types.ServiceConfig.serviceID x.2.services
    let newServices := byName Types.ServiceConfig.serviceID new.services
    let st := (ord.visit oldServices.entries).foldl (diffService x.1 newServices) (diffQuota x.1 x.2 new st)
    (ord.visit newServices.entries).foldl (diffAdded x.1 oldServices) st

def scopeBefore (a b : InvalidationScope) : Bool :=
  if a.pfx = b.pfx then a.serviceID ≤ b.serviceID else a.pfx ≤ b.pfx

/-- The keys of a map, sorted. -/
def sortedNames (ord : MapOrder) (m : Names) : List String :=
  ((ord.visit m.entries).map Sigma.fst).mergeSort fun a b => a ≤ b

/-- The values of a map, sorted. -/
def sortedScopes (ord : MapOrder) (m : GoMap InvalidationScope) : List InvalidationScope :=
  ((ord.visit m.entries).map Sigma.snd).mergeSort scopeBefore

def quotaWarning : String :=
  "quota reductions detected; if live usage is already above new quota, requests are denied until counters fall under quota or the window resets"

/-- The loops of `analyzeConfigUpdate`. -/
def compare (ord : MapOrder) (current next : Types.GatewayConfig) : State :=
  let currentByPrefix := byName Types.PrefixConfig.name current.prefixes
  let nextByPrefix := byName Types.PrefixConfig.name next.prefixes
  let st := (ord.visit currentByPrefix.entries).foldl (diffPrefix ord nextByPrefix) .start
  let st := (ord.visit nextByPrefix.entries).foldl (fun st x =>
    if x.1 ∈ currentByPrefix then st else { st with sections := mark st.sections "prefixes" }) st
  if current.runtime ≠ next.runtime then { st with sections := mark st.sections "runtime" } else st

end ConfigDiff

open ConfigDiff in
def analyzeConfigUpdate (ord : MapOrder) : Option Types.GatewayConfig → Option Types.GatewayConfig → ConfigUpdateAnalysis
  | _, none => .empty
  | none, some _ => { ConfigUpdateAnalysis.empty with changedSections := ["initial_load"] }
  | some current, some next =>
    let st := compare ord current next
    { changedSections := sortedNames ord st.sections
      responseCache := sortedScopes ord st.invalidations
      warnings := if st.quotaReduction then [quotaWarning] else []
      impactedPrefixes := sortedNames ord st.prefixes
      impactedServices := (sortedScopes ord st.services).filter fun s => s.serviceID ≠ ""
      hasQuotaReductionWarning := st.quotaReduction }

/-! What an update means for a service's responses, said once for each service. -/

namespace ConfigDiff

def serviceOf (p : Types.PrefixConfig) (id : String) : Option Types.ServiceConfig := p.services.reverse.find? fun s => s.serviceID = id

/-- Why the responses of a service that stays are dropped. -/
def changeReason (o n : Types.ServiceConfig) : Option String :=
  if cacheChanged o n then some "cache_config_changed"
  else if behaviorChanged o n then some "service_behavior_changed"
  else if tiersChanged o n then some "tiers_changed"
  else none

/-- The scope of a service that there was, given what the update has under its name. -/
def serviceScope (name id : String) (o : Types.ServiceConfig) : Option Types.ServiceConfig → Option InvalidationScope
  | none => some ⟨name, id, "mark-expire", "service_removed"⟩
  | some n => (changeReason o n).map fun reason => ⟨name, id, "", reason⟩

/-- The scopes of a prefix that there was; the empty id stands for the whole prefix. -/
def prefixScope (name id : String) (old : Types.PrefixConfig) : Option Types.PrefixConfig → Option InvalidationScope
  | none => if id = "" then some ⟨name, "", "mark-expire", "prefix_removed"⟩ else none
  | some new => (serviceOf old id).bind fun o => serviceScope name id o (serviceOf new id)

/-- The scope that an update calls for. -/
def expectedScope (current next : Types.GatewayConfig) (name id : String) : Option InvalidationScope :=
  (Edge.getPrefix current name).bind fun old => prefixScope name id old (Edge.getPrefix next name)

/-- The update lowers a quota of a service whose tiers it changes. -/
def lowersQuota (current next : Types.GatewayConfig) (name id : String) : Bool :=
  match (Edge.getPrefix current name).bind (serviceOf · id), (Edge.getPrefix next name).bind (serviceOf · id) with
  | some o, some n => tiersChanged o n && hasQuotaReductionBetween o n
  | _, _ => false

/-- Names of prefixes as the config file allows them. -/
def PlainNames (cfg : Types.GatewayConfig) : Prop := ∀ p ∈ cfg.prefixes, p.name ≠ "" ∧ '|' ∉ p.name.toList

end ConfigDiff

end Gate
