import Gate.Sanity.Descriptors
import Gate.Proofs.ValidSpecs
import Gate.Spec.Checks
import Gate.Spec.Lease

/-! An edge and the hub read the same limit from one config: the edge puts it into a check, the
hub looks it up again by the names the check carries. -/

namespace Gate

/-- The check carries the limit that the hub counts against. -/
structure Carries (check : Request) (spec : Spec) : Prop where
  limit : check.limit = spec.limit
  algo : check.algo.or = spec.algo.or
  window : check.algo.or ≠ .tokenBucket → check.window = max spec.window second

/-- A request as the edge has routed and authenticated it. -/
structure Edge.Routed (cfg : Types.GatewayConfig) (st : RequestState) : Prop where
  svc : getServiceConfig cfg st.scope st.service = some st.svc
  pfx : st.pfx = getPrefix cfg st.scope
  tier : ∃ tierID, getTier st.svc tierID = some st.tier

/-- A check that some holder of the config makes. -/
inductive Built (cfg : Types.GatewayConfig) : Request → Prop where
  | edge {hash : String → String} {policy : Types.EdgeRuntimePolicy} {r : Edge.HTTPRequest}
    {st : Edge.RequestState} {check : Request} (routed : Edge.Routed cfg st)
    (made : check ∈ Edge.checks hash policy r st) : Built cfg check
  | decide {digest : String → String} {domain : String} {descs : List Decide.Descriptor} {check : Request}
    (made : check ∈ Decide.checks digest cfg.limiting domain descs) : Built cfg check

/-- The tier a check names is the one the hub has on record for an API key. -/
def SameTier (env : HubEnv) (cfg : GatewayConfig) (check : Request) : Prop :=
  ∀ p svc, cfg.findService check.scope check.service = some (p, svc) →
    svc.authType = "" ∨ svc.authType = "api_key" → check.limitID = "" →
      env.tier check.scope check.key = some check.tier

namespace Config

section
variable {lib : Library} {f : File}

/-! ### The edge's index -/

theorem nul_notMem_name {s : String} (h : ∀ c ∈ s.toList, NameChar c) : '\x00' ∉ s.toList := by
  intro hn
  rcases h _ hn with h | h | h | h
  · exact absurd h (by decide)
  · exact absurd h (by decide)
  · exact absurd h (by decide)
  · exact absurd h (by decide)

/-- Index keys split at the separator. -/
theorem index_inj {a b s t : String} (ha : '\x00' ∉ a.toList) (hb : '\x00' ∉ b.toList)
    (h : a ++ "\x00" ++ s = b ++ "\x00" ++ t) : a = b ∧ s = t := by
  have hcut := congrArg (Decide.cut '\x00') h
  have h₁ := Decide.cut_pair (b := s) ha
  have h₂ := Decide.cut_pair (b := t) hb
  exact Prod.mk.inj ((h₁.symm.trans hcut).trans h₂)

theorem getPrefix_compile {scope : String} {p : Types.PrefixConfig} (h : Edge.getPrefix (compile f) scope = some p) :
    ∃ t ∈ f.services, p = prefixOf f.services t ∧ t.group = scope := by
  have hmem := List.mem_reverse.mp (List.mem_of_find?_eq_some h)
  have hname : p.name = scope := by
    have hd := List.find?_some h
    exact of_decide_eq_true hd
  obtain ⟨t, ht, rfl⟩ := (grouped_compile f).made p hmem
  exact ⟨t, ht, rfl, hname⟩

/-- What the edge finds under a route is the service of the file with that path. -/
theorem getServiceConfig_compile (hf : f.Sound lib) {scope service : String} {svc : Types.ServiceConfig}
    (h : Edge.getServiceConfig (compile f) scope service = some svc) :
    ∃ s ∈ f.services, svc = compileService s ∧ s.group = scope ∧ s.name = service ∧
      ∃ p, Edge.getPrefix (compile f) scope = some p ∧ p.quotaPeriod = s.limits.window := by
  unfold Edge.getServiceConfig at h
  split_ifs at h with hn
  obtain ⟨p, hp⟩ : ∃ p, Edge.getPrefix (compile f) scope = some p := by
    cases hp : Edge.getPrefix (compile f) scope with
    | none => simp [hp] at hn
    | some p => exact ⟨p, rfl⟩
  obtain ⟨t, ht, rfl, hscope⟩ := getPrefix_compile hp
  obtain ⟨l₁, l₂, hsplit, -⟩ := List.lookup_eq_some_iff.mp h
  have hmem : (scope ++ "\x00" ++ service, svc) ∈ Edge.serviceIndex (compile f) := by
    rw [← List.mem_reverse, hsplit]
    simp
  obtain ⟨q, hq, hmem⟩ := List.mem_flatMap.mp hmem
  obtain ⟨v, hv, heq⟩ := List.mem_map.mp hmem
  obtain ⟨hkey, rfl⟩ := Prod.mk.inj heq
  obtain ⟨u, hu, rfl⟩ := (grouped_compile f).made q hq
  obtain ⟨s, hs, hg, rfl⟩ := mem_prefixOf.mp hv
  obtain ⟨hgroup, hname⟩ := index_inj (nul_notMem_name (hf.services u hu).group.2)
    (hscope ▸ nul_notMem_name (hf.services t ht).group.2) hkey
  have hsg : s.group = scope := hg.trans hgroup
  exact ⟨s, hs, rfl, hsg, hname, _, hp, (hf.group_settings ht hs (hscope.trans hsg.symm)).1⟩

/-! ### The hub's side -/

theorem group_ne_scope {s : Service} (hs : s.Sound lib) : s.group ≠ Decide.scope := by
  obtain ⟨g, hseg, hg⟩ := hs.segments
  have : s.group = g := by simp [Service.group, hseg]
  rw [this]
  rintro rfl
  exact absurd hg (by decide)

theorem hub_findService_of_mem (hf : f.Sound lib) {s : Service} (hs : s ∈ f.services) :
    ∃ p, (compile f).limiting.findService s.group s.name = some (p, (compileService s).limiting) ∧
      p.quotaPeriod = s.limits.window := by
  obtain ⟨p, hp⟩ := findService_of_mem hf hs
  have hfind : (compile f).limiting.findService s.group s.name = some (p.limiting, (compileService s).limiting) := by
    rw [limiting_findService, hp]
    rfl
  obtain ⟨s', hs', -, hperiod, -, hname⟩ := hub_findService hf hfind
  rw [trimSpace_of_name (nameRe_chars (hf.services s hs).name).2] at hname
  obtain rfl := hf.eq_of_name hs' hs hname
  exact ⟨p.limiting, hfind, hperiod⟩

theorem findLimit_of_mem {s : Service} (hs : s.Sound lib) {a : ExtraLimit} (ha : a ∈ s.limits.also) :
    findLimit (compileService s).limiting a.name = some (compileExtra a).toLimitSpec := by
  have hlist : (compileService s).limiting.limits = s.limits.also.map fun a => (compileExtra a).toLimitSpec :=
    List.map_map
  have hid : ∀ b : ExtraLimit, (compileExtra b).toLimitSpec.id = b.name := fun b => rfl
  obtain ⟨l, hl⟩ : ∃ l, findLimit (compileService s).limiting a.name = some l := by
    refine Option.isSome_iff_exists.mp (List.find?_isSome.mpr ⟨(compileExtra a).toLimitSpec, ?_, by simp [hid]⟩)
    rw [hlist]
    exact List.mem_map_of_mem ha
  obtain ⟨b, hb, rfl, hname, -⟩ := findLimit_compile hs hl
  rw [hl, List.inj_on_of_nodup_map hs.limits.alsoNames hb ha hname]

theorem findTier_of_getTier {svc : Types.ServiceConfig} {tierID : String} {t : Types.TierConfig}
    (h : Edge.getTier svc tierID = some t) :
    findTier svc.limiting tierID = some t.toTierConfig ∧ t.tierID = tierID := by
  have hfind : (svc.limiting.tiers.find? fun t => t.tierID = tierID) = some t.toTierConfig := by
    have hmap : (svc.limiting.tiers.find? fun t => t.tierID = tierID) =
        (svc.tiers.find? fun t => t.tierID = tierID).map (·.toTierConfig) := List.find?_map
    rw [hmap]
    unfold Edge.getTier at h
    rw [h]
    rfl
  constructor
  · unfold findTier
    rw [hfind]
  · have hd := List.find?_some h
    exact of_decide_eq_true hd

theorem withOrg_withRegion_spec (env : HubEnv) (p : PrefixConfig) (svc : ServiceConfig) (org subject : String)
    (it : Item) : (withOrg env p svc org (withRegion env svc subject it)).spec = it.spec := by
  have hregion : (withRegion env svc subject it).spec = it.spec := by
    rcases withRegion_cases env svc subject it with h | ⟨g, name, -, -, h⟩ <;> rw [h]
  rcases withOrg_cases env p svc org (withRegion env svc subject it) with h | ⟨o, -, -, h⟩ <;> rw [h] <;>
    exact hregion

/-- With the key's tier on record, only its owner can be missing. -/
theorem callerOf_same {env : HubEnv} {svc : ServiceConfig} {scope subject tierID : String} (org : String)
    (h : svc.authType = "" ∨ svc.authType = "api_key" → env.tier scope subject = some tierID) :
    (∃ o, callerOf env svc scope subject tierID org = .ok (tierID, o)) ∨
      (callerOf env svc scope subject tierID org = .error .unavailable ∧ env.owner scope subject = none) := by
  unfold callerOf
  by_cases ha : svc.authType = "" ∨ svc.authType = "api_key"
  · rw [if_pos ha, h ha]
    by_cases ho : svc.org.isSome = true
    · cases hown : env.owner scope subject with
      | none => exact .inr ⟨by simp [ho], rfl⟩
      | some o => exact .inl ⟨o, by simp [ho]⟩
    · exact .inl ⟨"", by simp [ho]⟩
  · exact .inl ⟨org, if_neg ha⟩

/-- The answer to a check that was sent to the hub: the same limit, or no answer because the
records of the key's owner cannot be read. -/
def Answered (env : HubEnv) (check : Request) : Except Code Item → Prop
  | .ok it => Carries check it.spec
  | .error code => code = .unavailable ∧ check.limitID = "" ∧ env.owner check.scope check.key = none

section
variable {env : HubEnv} {check : Request}

theorem answered_of_resolved {it : Item}
    (hk : validKey env (compile f).limiting check.key = true)
    (h : Resolved env (compile f).limiting check.scope check.service check.key check.limitID check.tier check.org it)
    (ha : Carries check it.spec) :
    Answered env check (resolve env (compile f).limiting check.scope check.service check.key check.limitID
      check.tier check.org) := by
  rw [resolve_ok_iff.mpr ⟨hk, h⟩]
  exact ha

/-- The check of the caller's tier. -/
theorem base_answered (hf : f.Sound lib) {policy : Types.EdgeRuntimePolicy} {r : Edge.HTTPRequest}
    {st : Edge.RequestState} (hr : Edge.Routed (compile f) st)
    (hk : validKey env (compile f).limiting st.key = true)
    (ht : Gate.SameTier env (compile f).limiting (Edge.baseCheck policy r st)) :
    Answered env (Edge.baseCheck policy r st)
      (resolve env (compile f).limiting st.scope st.service st.key "" st.tier.tierID st.org) := by
  obtain ⟨s, hs, hsvc, hscope, hname, p, hp, hperiod⟩ := getServiceConfig_compile hf hr.svc
  obtain ⟨q, hq, hq'⟩ := hub_findService_of_mem hf hs
  obtain ⟨tierID, htier⟩ := hr.tier
  obtain ⟨hfind, rfl⟩ := findTier_of_getTier htier
  rw [hscope, hname] at hq
  rw [hsvc] at hfind
  have hagree : Carries (Edge.baseCheck policy r st)
      ⟨st.tier.algorithm, st.tier.quota, q.quotaPeriod, st.tier.rate⟩ := by
    refine ⟨rfl, rfl, fun _ => ?_⟩
    simp only [Edge.baseCheck, hr.pfx, hp, hperiod, hq']
  have hsn : st.scope ≠ Decide.scope := hscope ▸ group_ne_scope (hf.services s hs)
  rcases callerOf_same st.org fun ha => ht q _ hq ha rfl with ⟨o, hc⟩ | ⟨hc, howner⟩
  · refine answered_of_resolved hk (.tier hsn hq rfl hc hfind) ?_
    rw [withOrg_withRegion_spec]
    exact hagree
  · change callerOf env _ st.scope st.key st.tier.tierID st.org = _ at hc
    have hres : resolve env (compile f).limiting st.scope st.service st.key "" st.tier.tierID st.org =
        .error .unavailable := by
      simp [resolve, hk, hsn, hq, resolveTier, hc, bind, Except.bind]
    rw [hres]
    exact ⟨rfl, rfl, howner⟩

/-- The check of an additional limit. -/
theorem limit_answered (hf : f.Sound lib) {hash : String → String} {policy : Types.EdgeRuntimePolicy}
    {r : Edge.HTTPRequest} {st : Edge.RequestState} (hr : Edge.Routed (compile f) st) {l : Types.LimitSpec}
    (hl : l ∈ st.svc.limits) (hc : check = Edge.limitCheck hash st (Edge.baseCheck policy r st) l)
    (hk : validKey env (compile f).limiting check.key = true) :
    Answered env check (resolve env (compile f).limiting check.scope check.service check.key check.limitID
      check.tier check.org) := by
  obtain ⟨s, hs, hsvc, hscope, hname, p, hp, hperiod⟩ := getServiceConfig_compile hf hr.svc
  obtain ⟨q, hq, hq'⟩ := hub_findService_of_mem hf hs
  rw [hscope, hname] at hq
  rw [hsvc] at hl
  obtain ⟨a, ha, rfl⟩ := List.mem_map.mp hl
  have hsound := (hf.services s hs).limits.also a ha
  have hsn : st.scope ≠ Decide.scope := hscope ▸ group_ne_scope (hf.services s hs)
  subst hc
  refine answered_of_resolved hk
    (.named hsn hq (nameRe_chars hsound.name).1 (findLimit_of_mem (hf.services s hs) ha)) ⟨rfl, rfl, fun _ => ?_⟩
  -- a limit without a window of its own takes the prefix's on both sides
  simp only [Edge.limitCheck, Edge.baseCheck, hr.pfx, hp, hperiod, hq', compileExtra, compileSpec]
  have hsec : (0 : ℤ) < second := by decide
  rcases hsound.window with hw | hw
  · simp [hw]
  · have hpos : 0 < a.window := hsec.trans_le hw
    rw [if_pos hpos, if_neg (not_le.mpr hpos), max_eq_left hw]

/-- The check of a descriptor. -/
theorem descriptor_answered (hf : f.Sound lib) {digest : String → String} {domain : String}
    {descs : List Decide.Descriptor} (h : check ∈ Decide.checks digest (compile f).limiting domain descs)
    (hk : validKey env (compile f).limiting check.key = true) :
    Answered env check (resolve env (compile f).limiting check.scope check.service check.key check.limitID
      check.tier check.org) := by
  obtain ⟨desc, -, h⟩ := List.mem_filterMap.mp h
  obtain ⟨m, hm, rfl⟩ := Option.map_eq_some_iff.mp h
  have hfind := Decide.find_of_resolve (fun d hd => findDomain_compile hf hd) hm
  exact answered_of_resolved hk (.descriptor rfl hfind) ⟨rfl, rfl, fun _ => rfl⟩

end

/-- Every check, sent to a hub with the same config, is counted against the limit it carries. -/
theorem checks_answered {env : HubEnv} {check : Request} (h : Accepted lib f) (hb : Built (compile f) check)
    (o : LeaseOptions) (cn : String) (size : ℤ) (rate : ℚ) (hv : (Lease.leaseRequest o check size rate).validate = true)
    (hk : validKey env (compile f).limiting check.key = true) (ht : Gate.SameTier env (compile f).limiting check) :
    Answered env check (resolveLease env (compile f).limiting cn (Lease.leaseRequest o check size rate)) := by
  have hf := h.sound
  have hres : Answered env check (resolve env (compile f).limiting check.scope check.service check.key
      check.limitID check.tier check.org) := by
    cases hb with
    | edge routed made =>
      rcases List.mem_cons.mp made with rfl | made
      · exact base_answered hf routed hk ht
      · obtain ⟨l, hl, rfl⟩ := List.mem_map.mp made
        exact limit_answered hf routed hl rfl hk
    | decide made => exact descriptor_answered hf made hk
  unfold resolveLease
  rw [hv]
  simp only [Bool.not_true, Bool.false_eq_true, if_false]
  change Answered env check (resolve env (compile f).limiting check.scope check.service check.key
    check.limitID check.tier check.org >>= _)
  cases hr : resolve env (compile f).limiting check.scope check.service check.key check.limitID check.tier
      check.org with
  | error code =>
    rw [hr] at hres
    exact hres
  | ok it =>
    rw [hr] at hres
    exact hres

/-- A free caller of `/v1/orders`. -/
def freeState : Edge.RequestState where
  scope := "v1"
  service := "orders"
  svc := compileService (ordersService { requests := 100 })
  pfx := Edge.getPrefix (compile (ordersFile { requests := 100 })) "v1"
  key := "k"
  tier := compileTier "free" { requests := 100 } .unset
  org := ""
  clientIP := "10.0.0.1"

def freeCheck : Request := Edge.baseCheck Types.defaultRuntimePolicy.edge ⟨"GET", fun _ => none⟩ freeState

theorem free_check_answered :
    Answered oneKeyHub freeCheck (resolveLease oneKeyHub (compile (ordersFile { requests := 100 })).limiting ""
      (Lease.leaseRequest (newLease ⟨0, 0, 0, 0, "edge"⟩) freeCheck 10 0)) := by
  have hacc : Accepted plainLibrary (ordersFile { requests := 100 }) := by decide +kernel
  have hrouted : Edge.Routed (compile (ordersFile { requests := 100 })) freeState :=
    ⟨by with_unfolding_all rfl, rfl, "free", by with_unfolding_all rfl⟩
  have hmade : freeCheck ∈ Edge.checks id Types.defaultRuntimePolicy.edge ⟨"GET", fun _ => none⟩ freeState :=
    List.mem_cons_self ..
  exact checks_answered hacc (.edge hrouted hmade) _ _ _ _ (by decide) rfl fun _ _ _ _ _ => rfl

end

end Config

end Gate
