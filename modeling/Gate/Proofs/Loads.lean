import Gate.Spec.Load
import Gate.Sanity.Resolve

/-! Which accepted files the hub loads. The hub's check repeats most of the file's own; it
also wants a service, default limits within the maximal ones, and a target that is a request
URI. -/

namespace Gate

/-! ### Checks that pass -/

@[simp] theorem failIf_ok {bad : Prop} [Decidable bad] {msg : String} : failIf bad msg = .ok () ↔ ¬ bad := by
  unfold failIf
  split_ifs <;> simp_all

@[simp] theorem then_ok {x : Except String Unit} {f : Unit → Except String Unit} :
    (x >>= f) = .ok () ↔ x = .ok () ∧ f () = .ok () := by
  cases x with
  | error e => simp [bind, Except.bind]
  | ok a => simp [bind, Except.bind]

@[simp] theorem mapError_ok {x : Except String Unit} {g : String → String} :
    x.mapError g = .ok () ↔ x = .ok () := by
  cases x <;> simp [Except.mapError]

theorem checkEach_ok {α : Type} {check : ℕ → α → Except String Unit} {xs : List α} {i : ℕ} {P : α → Prop}
    (h : ∀ i, ∀ x ∈ xs, check i x = .ok () ↔ P x) : checkEach check i xs = .ok () ↔ ∀ x ∈ xs, P x := by
  induction xs generalizing i with
  | nil => simp [checkEach]
  | cons x xs ih =>
    rw [checkEach, then_ok, h i x (List.mem_cons_self ..), ih fun j y hy => h j y (List.mem_cons_of_mem _ hy),
      List.forall_mem_cons]

namespace Types

theorem positiveOr_pos (v : ℤ) {d : ℤ} (h : 0 < d) : 0 < positiveOr v d := by
  unfold positiveOr
  split_ifs <;> omega

/-- The default query limits are within the maximal ones. -/
def AnalyticsRuntimePolicy.Ordered (p : AnalyticsRuntimePolicy) : Prop :=
  p.defaultEventsLimit ≤ p.maxEventsLimit ∧ p.defaultSummaryLimit ≤ p.maxSummaryLimit

/-- With the defaults filled in, a runtime section passes its own check but for those limits. -/
theorem RuntimePolicy.effective_validate (rp : RuntimePolicy) :
    rp.effective.validate = .ok () ↔ rp.effective.analytics.Ordered := by
  have pos : ∀ (v : ℤ) {d : ℤ}, 0 < d → 0 < positiveOr v d := positiveOr_pos
  have hub : rp.effective.hub.validate = .ok () := by
    simp only [HubRuntimePolicy.validate, then_ok, failIf_ok, not_or, not_lt]
    exact ⟨(pos _ (by decide)).le, (pos _ (by decide)).le, (pos _ (by decide)).le, (pos _ (by decide)).le⟩
  have edge : rp.effective.edge.validate = .ok () := by
    simp only [EdgeRuntimePolicy.validate, then_ok, failIf_ok, not_or, not_lt]
    have pct : 0 ≤ percentOr rp.edge.rateLowWaterPct 20 ∧ percentOr rp.edge.rateLowWaterPct 20 ≤ 100 := by
      unfold percentOr
      split_ifs with h
      · norm_num
      · push Not at h
        exact ⟨h.1.le, h.2⟩
    exact ⟨(pos _ (by decide)).le, (pos _ (by decide)).le, (pos _ (by decide)).le, pct, (pos _ (by decide)).le,
      ⟨(pos _ (by decide)).le, (pos _ (by decide)).le, (pos _ (by decide)).le, (pos _ (by decide)).le,
        (pos _ (by decide)).le⟩, (pos _ (by decide)).le⟩
  rw [RuntimePolicy.validate, then_ok, then_ok, mapError_ok, mapError_ok, mapError_ok, hub, edge]
  simp only [true_and, AnalyticsRuntimePolicy.validate, then_ok, failIf_ok, not_or, not_lt, not_and]
  have hev : 0 < rp.effective.analytics.maxEventsLimit := pos _ (by decide)
  have hsum : 0 < rp.effective.analytics.maxSummaryLimit := pos _ (by decide)
  refine ⟨fun h => ⟨h.2.2.1 hev, h.2.2.2 hsum⟩, fun h => ⟨?_, ?_, fun _ => h.1, fun _ => h.2⟩⟩
  · exact ⟨(pos _ (by decide)).le, (pos _ (by decide)).le, (pos _ (by decide)).le, (pos _ (by decide)).le,
      (pos _ (by decide)).le⟩
  · exact ⟨(pos _ (by decide)).le, hev.le, (pos _ (by decide)).le, (pos _ (by decide)).le, hsum.le⟩

end Types

namespace Config

/-- The hub can use the URL as a service's target. -/
def Target (lib : Library) (raw : String) : Prop :=
  ∃ u, lib.parseRequestURI raw = .ok u ∧ isHTTP u ∧ trimSpace u.host ≠ ""

theorem checkTarget_ok {lib : Library} {svcPath raw : String} :
    checkTarget lib svcPath raw = .ok () ↔ Target lib raw := by
  unfold checkTarget Target
  cases lib.parseRequestURI raw with
  | error e => simp
  | ok u => simp

section
variable {lib : Library} {s : Service}

/-- A compiled tier has a name of the file's and a quota. -/
theorem tier_of_mem (hs : s.Sound lib) {t : Types.TierConfig} (ht : t ∈ (compileService s).tiers) :
    tierRe t.tierID = true ∧ 0 < t.quota := by
  obtain ⟨name, u, hu, rfl⟩ := mem_compileService_tiers.mp ht
  have hu := hs.limits.tiers name u hu
  exact ⟨hu.name, (compileTier_grounded (orAlgo_valid hu.algorithm hs.limits.algorithm) hu.budget).quota⟩

theorem trimSpace_tierID {t : Types.TierConfig} (h : tierRe t.tierID = true) : trimSpace t.tierID = t.tierID :=
  trimSpace_of_name (tierRe_chars h).2

theorem checkTiers_ok {svcPath : String} {seen : List String} {i : ℕ} {ts : List Types.TierConfig}
    (hall : ∀ t ∈ ts, tierRe t.tierID = true ∧ 0 < t.quota) (hnodup : (ts.map (·.tierID)).Nodup)
    (hseen : ∀ t ∈ ts, t.tierID ∉ seen) : checkTiers lib svcPath seen i ts = .ok () := by
  induction ts generalizing seen i with
  | nil => rfl
  | cons t ts ih =>
    obtain ⟨hname, hquota⟩ := hall t (List.mem_cons_self ..)
    obtain ⟨hfresh, hnodup⟩ := List.nodup_cons.mp hnodup
    have htrim := trimSpace_tierID hname
    simp only [checkTiers, then_ok, failIf_ok, htrim]
    refine ⟨(tierRe_chars hname).1, hseen t (List.mem_cons_self ..), by omega, ?_⟩
    refine ih (fun u hu => hall u (List.mem_cons_of_mem _ hu)) hnodup fun u hu hmem => ?_
    rcases List.mem_cons.mp hmem with heq | hmem
    · exact hfresh (List.mem_map.mpr ⟨u, hu, heq⟩)
    · exact hseen u (List.mem_cons_of_mem _ hu) hmem

theorem tierIDs_nodup (s : Service) : ((compileService s).tiers.map (·.tierID)).Nodup := by
  rw [compileService, List.map_map]
  have : ((fun t : Types.TierConfig => t.tierID) ∘ fun name =>
      compileTier name ((s.limits.tiers.lookup name).getD {}) s.limits.algorithm) = id := rfl
  rw [this, List.map_id]
  exact (List.perm_insertionSort _ _).nodup_iff.mpr s.limits.tiers.keys_nodup

theorem compileService_validate (hs : s.Sound lib) : (compileService s).validate = .ok () := by
  simp only [Types.ServiceConfig.validate, then_ok, mapError_ok, Types.AnalyticsConfig.validate, failIf_ok]
  refine ⟨⟨?_, ?_⟩, ?_⟩
  · rintro ⟨h₁, h₂⟩
    unfold Types.AnalyticsConfig.effectiveMode at h₁ h₂
    split_ifs at h₁ h₂ with he hm
    · exact h₁ rfl
    · exact h₂ rfl
    · exact h₂ rfl
  · have hrate : (compileService s).analytics.samplingRate =
        (s.analytics.bind (·.sampleRate)).getD 1 := rfl
    rw [hrate]
    cases hb : s.analytics.bind (·.sampleRate) with
    | none => norm_num
    | some r =>
      obtain ⟨a, ha, hr⟩ := Option.bind_eq_some_iff.mp hb
      have := hs.sampling a r ha hr
      rw [Option.getD_some]
      rintro (h | h) <;> linarith [this.1, this.2]
  · have hsafe : (compileService s).safetyTier = s.limits.whenHubUnavailable.map fun fb =>
        compileTier safetyTierID { requests := fb.allow } .unset := rfl
    rw [hsafe]
    cases hf : s.limits.whenHubUnavailable with
    | none => rfl
    | some fb =>
      simp only [Option.map_some, then_ok, failIf_ok]
      refine ⟨by simp [compileTier, safetyTierID], fun h => hs.limits.fallback fb hf ?_⟩
      exact UInt32.toNat_inj.mp h

theorem checkFailure_ok (hs : s.Sound lib) (svcPath : String) :
    checkFailure lib svcPath (compileService s).failure = .ok () := by
  have hmode : (compileService s).failure.effectiveUpstreamPolicy.mode ∈ ["fail-closed", "fail-open"] := by
    have hm : (compileService s).failure.upstream.mode ∈ ["fail-closed", "fail-open"] := by
      change (compileUpstreamError s.onUpstreamError (compileRetries s.retries)).mode ∈ _
      cases he : s.onUpstreamError with
      | none => cases s.retries <;> simp [compileUpstreamError, compileRetries, noRetries]
      | some e => exact hs.upstreamError e he
    have hne : (compileService s).failure.upstream.mode ≠ "" := by
      intro h
      rw [h] at hm
      exact absurd hm (by decide)
    rw [Types.FailureConfig.effectiveUpstreamPolicy, if_neg hne]
    exact hm
  have hcodes : ∀ code ∈ (compileService s).failure.effectiveUpstreamPolicy.retryOnStatuses,
      ¬ (code < 100 ∨ code > 599) := by
    change ∀ code ∈ (compileUpstreamError s.onUpstreamError (compileRetries s.retries)).retryOnStatuses, _
    have hkeep : (compileUpstreamError s.onUpstreamError (compileRetries s.retries)).retryOnStatuses =
        (compileRetries s.retries).retryOnStatuses := by
      cases s.onUpstreamError <;> rfl
    rw [hkeep]
    cases hr : s.retries with
    | none => simp [compileRetries, noRetries]
    | some r =>
      intro code hc
      have := (hs.retries r hr).2 code hc
      omega
  simp only [checkFailure, then_ok, failIf_ok]
  refine ⟨?_, ?_, not_not.mpr hmode, ?_⟩
  · by_cases hd : s.limits.defaultTier = "" <;>
      simp [Types.FailureConfig.effectiveHubPolicy, compileService, compileHubPolicy, hd]
  · rcases hs.limits.defaultTier with hd | hd
    · simp [Types.FailureConfig.effectiveHubPolicy, compileService, compileHubPolicy, hd]
    · obtain ⟨t, ht⟩ := Option.isSome_iff_exists.mp (AList.lookup_isSome.mpr hd)
      obtain ⟨hne, hchars⟩ := tierRe_chars (hs.limits.tiers _ t ht).name
      simp [Types.FailureConfig.effectiveHubPolicy, compileService, compileHubPolicy, hne,
        trimSpace_of_name hchars]
  · exact (checkEach_ok (P := fun code : ℤ => ¬ (code < 100 ∨ code > 599)) fun _ _ _ => failIf_ok).mpr hcodes

theorem checkCache_ok (hs : s.Sound lib) (svcPath : String) :
    checkCache svcPath (compileService s).cache = .ok () := by
  have hc : (compileService s).cache = s.cache.map compileCache := rfl
  rw [hc]
  cases hcs : s.cache with
  | none => rfl
  | some c => exact failIf_ok.mpr fun h => absurd h.2 (not_le.mpr (hs.cache c hcs))

theorem checkSafety_ok (hs : s.Sound lib) (svcPath : String) :
    checkSafety svcPath (compileService s).tiers (compileService s).safetyTier = .ok () := by
  have hc : (compileService s).safetyTier = s.limits.whenHubUnavailable.map fun fb =>
    compileTier safetyTierID { requests := fb.allow } .unset := rfl
  rw [hc]
  cases s.limits.whenHubUnavailable with
  | none => rfl
  | some fb =>
    refine failIf_ok.mpr fun h => ?_
    obtain ⟨t, ht, heq⟩ := List.mem_map.mp h
    obtain ⟨hname, -⟩ := tier_of_mem hs ht
    rw [trimSpace_tierID hname] at heq
    exact tierRe_ne_safety hname (heq.trans (by decide : trimSpace safetyTierID = safetyTierID))

/-- The hub takes a service of an accepted file when it can use its target. -/
theorem checkService_ok (hs : s.Sound lib) {svcPath pfx : String} {seen : List String} (hseen : s.name ∉ seen) :
    checkService lib svcPath pfx seen (compileService s) = .ok () ↔
      Target lib (s.upstreams.headD s.upstream) := by
  obtain ⟨hne, hchars⟩ := nameRe_chars hs.name
  have hid : trimSpace (compileService s).serviceID = s.name := trimSpace_of_name hchars
  have htarget : (compileService s).targetURL = s.upstreams.headD s.upstream := rfl
  have htiers : (compileService s).tiers ≠ [] := by
    obtain ⟨e, es, hes⟩ := List.exists_cons_of_ne_nil hs.limits.nonempty
    have hu : s.limits.tiers.lookup e.1 = some e.2 := AList.mem_lookup_iff.mpr (by rw [hes]; exact List.mem_cons_self ..)
    exact List.ne_nil_of_mem (mem_compileService_tiers.mpr ⟨_, _, hu, rfl⟩)
  have hchecked : checkTiers lib svcPath [] 0 (compileService s).tiers = .ok () :=
    checkTiers_ok (fun t ht => tier_of_mem hs ht) (tierIDs_nodup s) fun t _ => List.not_mem_nil
  simp only [checkService, then_ok, mapError_ok, failIf_ok, compileService_validate hs, hid, htarget,
    checkTarget_ok, hchecked, checkFailure_ok hs]
  exact ⟨fun h => h.2.2.2.1, fun h => ⟨trivial, hne, hseen, h, htiers, trivial, checkCache_ok hs svcPath,
    checkSafety_ok hs svcPath, trivial⟩⟩

end

theorem checkServices_ok {lib : Library} {path pfx : String} {seen : List String} {i : ℕ} {ss : List Service}
    (hs : ∀ s ∈ ss, s.Sound lib) (hnodup : (ss.map (·.name)).Nodup) (hseen : ∀ s ∈ ss, s.name ∉ seen) :
    checkServices lib path pfx seen i (ss.map compileService) = .ok () ↔
      ∀ s ∈ ss, Target lib (s.upstreams.headD s.upstream) := by
  induction ss generalizing seen i with
  | nil => simp [checkServices]
  | cons s ss ih =>
    obtain ⟨hfresh, hnodup⟩ := List.nodup_cons.mp hnodup
    have hsound := hs s (List.mem_cons_self ..)
    have hid : trimSpace (compileService s).serviceID = s.name := trimSpace_of_name (nameRe_chars hsound.name).2
    rw [List.map_cons, checkServices, then_ok, checkService_ok hsound (hseen s (List.mem_cons_self ..)), hid,
      ih (fun t ht => hs t (List.mem_cons_of_mem _ ht)) hnodup ?_, List.forall_mem_cons]
    intro t ht hmem
    rcases List.mem_cons.mp hmem with heq | hmem
    · exact hfresh (List.mem_map.mpr ⟨t, ht, heq⟩)
    · exact hseen t (List.mem_cons_of_mem _ ht) hmem

theorem File.Sound.names_nodup {lib : Library} {f : File} (hf : f.Sound lib) : (f.services.map (·.name)).Nodup :=
  List.pairwise_map.mpr (hf.apart.imp fun h => h.1)

theorem checkPrefix_ok {lib : Library} {f : File} (hf : f.Sound lib) {t : Service} (ht : t ∈ f.services)
    {path : String} {seen : List String} (hseen : t.group ∉ seen) :
    checkPrefix lib path seen (prefixOf f.services t) = .ok () ↔
      ∀ s ∈ f.services, s.group = t.group → Target lib (s.upstreams.headD s.upstream) := by
  obtain ⟨hne, hchars⟩ := (hf.services t ht).group
  have hwin := (hf.services t ht).limits.window
  have hservices : (prefixOf f.services t).services ≠ [] :=
    List.ne_nil_of_mem (mem_prefixOf.mpr ⟨t, ht, rfl, rfl⟩)
  have hlist : (prefixOf f.services t).services =
      (f.services.filter fun s => s.group = t.group).map compileService := rfl
  simp only [checkPrefix, then_ok, failIf_ok, prefixOf_name, trimSpace_of_name hchars]
  rw [hlist] at hservices ⊢
  rw [checkServices_ok (fun s hs => hf.services s (List.mem_filter.mp hs).1)
    (hf.names_nodup.sublist (List.filter_sublist.map _)) (by simp)]
  constructor
  · rintro ⟨-, -, -, -, h⟩ s hs hg
    exact h s (List.mem_filter.mpr ⟨hs, decide_eq_true hg⟩)
  · intro h
    refine ⟨hne, hseen, not_le.mpr hwin, hservices, fun s hs => ?_⟩
    obtain ⟨hs, hg⟩ := List.mem_filter.mp hs
    exact h s hs (of_decide_eq_true hg)

theorem checkPrefixes_ok {lib : Library} {f : File} (hf : f.Sound lib) {ps : List Types.PrefixConfig}
    (hmade : ∀ p ∈ ps, ∃ t ∈ f.services, p = prefixOf f.services t) (hnodup : (ps.map (·.name)).Nodup)
    {seen : List String} {i : ℕ} (hseen : ∀ p ∈ ps, p.name ∉ seen) :
    checkPrefixes lib seen i ps = .ok () ↔ ∀ p ∈ ps, ∀ s ∈ f.services, s.group = p.name →
      Target lib (s.upstreams.headD s.upstream) := by
  induction ps generalizing seen i with
  | nil => simp [checkPrefixes]
  | cons p ps ih =>
    obtain ⟨t, ht, rfl⟩ := hmade p (List.mem_cons_self ..)
    obtain ⟨hfresh, hnodup⟩ := List.nodup_cons.mp hnodup
    have hname := trimSpace_of_name (hf.services t ht).group.2
    rw [checkPrefixes, then_ok, checkPrefix_ok hf ht (hseen _ (List.mem_cons_self ..)), prefixOf_name, hname,
      ih (fun q hq => hmade q (List.mem_cons_of_mem _ hq)) hnodup ?_, List.forall_mem_cons, prefixOf_name]
    intro q hq hmem
    rcases List.mem_cons.mp hmem with heq | hmem
    · exact hfresh (List.mem_map.mpr ⟨q, hq, heq⟩)
    · exact hseen q (List.mem_cons_of_mem _ hq) hmem

theorem compile_validate {lib : Library} {f : File} (hf : f.Sound lib) :
    (compile f).validate = .ok () ↔ (compile f).runtime.analytics.Ordered := by
  have hprefixes : checkEach (fun i (p : Types.PrefixConfig) =>
      p.validate.mapError (indexed "prefixes" i ++ ": " ++ ·)) 0 (compile f).prefixes = .ok () := by
    refine (checkEach_ok (P := fun _ => True) fun i p hp => ?_).mpr fun _ _ => trivial
    obtain ⟨t, ht, rfl⟩ := (grouped_compile f).made p hp
    rw [mapError_ok, iff_true, Types.PrefixConfig.validate]
    simp only [then_ok, failIf_ok, not_lt]
    refine ⟨(hf.services t ht).limits.leaseSize, le_refl (0 : ℚ), le_refl (0 : ℤ), le_refl (0 : ℤ), ?_⟩
    refine (checkEach_ok (P := fun _ => True) fun j svc hsvc => ?_).mpr fun _ _ => trivial
    obtain ⟨s, hs, -, rfl⟩ := mem_prefixOf.mp hsvc
    rw [mapError_ok, iff_true]
    exact compileService_validate (hf.services s hs)
  rw [Types.GatewayConfig.validate, then_ok, hprefixes, mapError_ok]
  simp only [true_and]
  exact Types.RuntimePolicy.effective_validate _

/-- The hub loads an accepted file just when it has a service, its default query limits are
within the maximal ones, and every target is an HTTP request URI with a host. -/
theorem loads_iff {lib : Library} {f : File} (h : Accepted lib f) :
    validateGatewayConfig lib (some (compile f)) = .ok () ↔
      f.services ≠ [] ∧ (compile f).runtime.analytics.Ordered ∧
        ∀ s ∈ f.services, Target lib (s.upstreams.headD s.upstream) := by
  have hf := h.sound
  have hgr := grouped_compile f
  have hnil : (compile f).prefixes = [] ↔ f.services = [] := by
    constructor
    · intro hp
      by_contra hne
      obtain ⟨s, ss, hs⟩ := List.exists_cons_of_ne_nil hne
      obtain ⟨p, hp', -⟩ := hgr.covered s (by rw [hs]; exact List.mem_cons_self ..)
      rw [hp] at hp'
      cases hp'
    · intro hs
      rw [compile, hs]
      rfl
  simp only [validateGatewayConfig, then_ok, mapError_ok, failIf_ok, compile_validate hf, hnil,
    checkPrefixes_ok hf hgr.made hgr.distinct fun p _ => List.not_mem_nil]
  constructor
  · rintro ⟨hord, hne, htargets⟩
    refine ⟨hne, hord, fun s hs => ?_⟩
    obtain ⟨p, hp, hname⟩ := hgr.covered s hs
    exact htargets p hp s hs hname.symm
  · rintro ⟨hne, hord, htargets⟩
    exact ⟨hord, hne, fun p _ s hs _ => htargets s hs⟩

/-- Asking for more events by default than the default maximum. -/
def manyEvents : File :=
  { ordersFile { requests := 100 } with runtime := { analytics := { defaultEventsLimit := 6000 } } }

/-- The validator has no rule for the query limits; the hub has. -/
theorem accepted_but_not_loaded :
    Accepted plainLibrary manyEvents ∧
      validateGatewayConfig plainLibrary (some (compile manyEvents)) =
        .error ("config validation failed: runtime: analytics: " ++
          "default_events_limit must be <= max_events_limit") := by
  decide +kernel

theorem loads_plain_file :
    Accepted plainLibrary (ordersFile { requests := 100 }) ∧
      validateGatewayConfig plainLibrary (some (compile (ordersFile { requests := 100 }))) = .ok () := by
  have hacc : Accepted plainLibrary (ordersFile { requests := 100 }) := by decide +kernel
  refine ⟨hacc, (loads_iff hacc).mpr ⟨by decide, ?_, fun s hs => ?_⟩⟩
  · unfold Types.AnalyticsRuntimePolicy.Ordered
    decide +kernel
  · obtain rfl := List.mem_singleton.mp hs
    exact ⟨⟨"http", "orders:8080", ""⟩, by rfl, .inl rfl, by decide⟩

end Config

end Gate
