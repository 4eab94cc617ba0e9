import Gate.Sanity.Compile
import Gate.Sanity.Ledger
import Gate.Spec.Hub

/-! What the hub resolves a request to: once for any config, then for one compiled from a file
that passed the checks. -/

namespace Gate

section
variable {env : HubEnv} {cfg : GatewayConfig} {scope service subject limitID tierID org : String} {it : Item}

/-- The budget around a tier's quota changes nothing else. -/
theorem withOrg_cases (env : HubEnv) (p : PrefixConfig) (svc : ServiceConfig) (org : String) (it : Item) :
    withOrg env p svc org it = it ∨ ∃ o, svc.org = some o ∧ org ≠ "" ∧
      withOrg env p svc org it = { it with
        ref := { it.ref with parent := env.orgID org }
        args := { it.args with
          parent := some ⟨.fixedWindow, o.quota, if o.window ≤ 0 then p.quotaPeriod else o.window, 0⟩ } } := by
  unfold withOrg
  split
  · exact .inl rfl
  · rename_i o ho
    by_cases hn : org = ""
    · exact .inl (if_pos hn)
    · exact .inr ⟨o, ho, hn, if_neg hn⟩

theorem withRegion_cases (env : HubEnv) (svc : ServiceConfig) (subject : String) (it : Item) :
    withRegion env svc subject it = it ∨ ∃ g name, svc.global = some g ∧ env.region = some name ∧
      withRegion env svc subject it = { it with args := { it.args with
        regional := true, allocBase := regionBase env.score it.spec.limit g.floors name subject } } := by
  unfold withRegion
  split
  · rename_i g name hg hr
    exact .inr ⟨g, name, hg, hr, rfl⟩
  · exact .inl rfl

/-- The item `resolve` makes of a request, by what the request names. -/
inductive Resolved (env : HubEnv) (cfg : GatewayConfig) (scope service subject limitID tierID org : String) :
    Item → Prop where
  | descriptor {l : LimitSpec} (hs : scope = Decide.scope) (hl : Decide.find cfg service limitID = some l) :
    Resolved env cfg scope service subject limitID tierID org {
      ref := ⟨Decide.scope, service, limitID, subject, ""⟩
      spec := ⟨l.algorithm, l.quota, l.window, l.rate⟩
      args := { noArgs with horizon := defaultLeaseHorizon, minGrant := defaultLeaseMin } }
  | named {p : PrefixConfig} {svc : ServiceConfig} {l : LimitSpec} (hs : scope ≠ Decide.scope)
    (hp : cfg.findService scope service = some (p, svc)) (hn : limitID ≠ "") (hl : findLimit svc limitID = some l) :
    Resolved env cfg scope service subject limitID tierID org {
      ref := ⟨scope, service, limitID, subject, ""⟩
      spec := ⟨l.algorithm, l.quota, if l.window ≤ 0 then p.quotaPeriod else l.window, l.rate⟩
      args := leaseArgs svc.lease }
  | tier {p : PrefixConfig} {svc : ServiceConfig} {t : TierConfig} {o tier : String} (hs : scope ≠ Decide.scope)
    (hp : cfg.findService scope service = some (p, svc)) (hn : limitID = "")
    (hc : callerOf env svc scope subject tierID org = .ok (tier, o)) (ht : findTier svc tier = some t) :
    Resolved env cfg scope service subject limitID tierID org (withOrg env p svc o (withRegion env svc subject {
      ref := ⟨scope, service, limitID, subject, ""⟩
      spec := ⟨t.algorithm, t.quota, p.quotaPeriod, t.rate⟩
      args := leaseArgs svc.lease }))

theorem resolve_ok_iff : resolve env cfg scope service subject limitID tierID org = .ok it ↔
    validKey env cfg subject = true ∧ Resolved env cfg scope service subject limitID tierID org it := by
  constructor
  · intro h
    unfold resolve at h
    split at h
    · cases h
    rename_i hk
    refine ⟨by simpa using hk, ?_⟩
    by_cases hs : scope = Decide.scope
    · rw [if_pos hs, resolveDescriptor] at h
      split at h
      · cases h
      · rename_i l hl
        cases h
        exact .descriptor hs hl
    rw [if_neg hs] at h
    split at h
    · cases h
    rename_i p svc hp
    by_cases hn : limitID = ""
    · rw [if_neg (not_not.mpr hn), resolveTier] at h
      cases hc : callerOf env svc scope subject tierID org with
      | error e =>
        rw [hc] at h
        cases h
      | ok c =>
        rw [hc] at h
        dsimp only [bind, Except.bind] at h
        split at h
        · cases h
        · rename_i t ht
          cases h
          exact .tier hs hp hn hc ht
    · rw [if_pos hn, resolveNamed] at h
      split at h
      · cases h
      · rename_i l hl
        cases h
        exact .named hs hp hn hl
  · rintro ⟨hk, h⟩
    cases h with
    | descriptor hs hl => simp [resolve, hk, hs, resolveDescriptor, hl]
    | named hs hp hn hl => simp [resolve, hk, hs, hp, hn, resolveNamed, hl]
    | tier hs hp hn hc ht =>
      simp [resolve, hk, hs, hp, hn, resolveTier, hc, ht, bind, Except.bind, pure, Except.pure]

end

/-! ### Limits that the ledger accepts -/

theorem Algo.or_eq_tokenBucket {a : Algo} : a.or = .tokenBucket ↔ a = .tokenBucket := by
  cases a <;> simp [Algo.or]

/-- A limit of the runtime config that a ledger can keep. -/
structure LimitSpec.Grounded (l : LimitSpec) : Prop where
  algorithm : l.algorithm.valid = true
  quota : 0 < l.quota
  rate : l.algorithm = .tokenBucket → 0 < l.rate

theorem LimitSpec.Grounded.validate {l : LimitSpec} (h : l.Grounded) (window : ℤ) :
    Spec.validate ⟨l.algorithm, l.quota, window, l.rate⟩ = .ok () :=
  Spec.validate_ok.mpr ⟨h.algorithm, h.quota, fun ha => h.rate (Algo.or_eq_tokenBucket.mp ha)⟩

structure TierConfig.Grounded (t : TierConfig) : Prop where
  algorithm : t.algorithm.valid = true
  quota : 0 < t.quota
  rate : t.algorithm = .tokenBucket → 0 < t.rate

theorem TierConfig.Grounded.validate {t : TierConfig} (h : t.Grounded) (window : ℤ) :
    Spec.validate ⟨t.algorithm, t.quota, window, t.rate⟩ = .ok () :=
  Spec.validate_ok.mpr
    ⟨h.algorithm, Int.natCast_pos.mpr h.quota, fun ha => h.rate (Algo.or_eq_tokenBucket.mp ha)⟩

/-- A level of a compiled descriptor tree, and those below it. -/
inductive Decide.Level : List DescriptorEntry → Prop where
  | mk {es : List DescriptorEntry}
    (named : ∀ e ∈ es, e.key ≠ "" ∧ Config.hasSeparator (e.key ++ e.value) = false)
    (distinct : (es.map fun e => (e.key, e.value)).Nodup)
    (limits : ∀ e ∈ es, ∀ l, e.limit = some l →
      l.Grounded ∧ (l.algorithm = .tokenBucket ∨ second ≤ l.window))
    (deeper : ∀ e ∈ es, Decide.Level e.entries) : Decide.Level es

namespace Config

theorem internalAlgo_valid {a : Algo} (h : a.valid = true) : (internalAlgo a).valid = true := by
  unfold internalAlgo
  split_ifs
  · rfl
  · exact h

theorem internalAlgo_bucket {a : Algo} : internalAlgo a = .tokenBucket ↔ a = .tokenBucket := by
  unfold internalAlgo
  split_ifs with h <;> simp [h]

theorem internalAlgo_or (a : Algo) : (internalAlgo a).or = a.or := by
  unfold internalAlgo
  split_ifs with h
  · rw [h]
    rfl
  · rfl

theorem toNat_pos {x : UInt32} (h : x ≠ 0) : 0 < x.toNat :=
  Nat.pos_of_ne_zero fun hx => h (UInt32.toNat_inj.mp hx)

theorem compileSpec_grounded {id : String} {algo : Algo} {requests burst : UInt32} {window : ℤ} {rate : ℚ}
    {shadow : Bool} (ha : algo.valid = true) (hb : Budget algo requests rate burst) :
    (compileSpec id algo requests burst window rate shadow).Grounded := by
  refine ⟨internalAlgo_valid ha, ?_, ?_⟩
  all_goals
    simp only [compileSpec, internalAlgo_bucket]
    unfold Budget at hb
    split_ifs at hb ⊢ with h
  · exact_mod_cast toNat_pos hb.2
  · exact_mod_cast toNat_pos hb
  · exact fun _ => hb.1
  · exact fun h' => absurd h' h

theorem compileTier_grounded {name : String} {t : Tier} {default : Algo}
    (ha : (orAlgo t.algorithm default).valid = true)
    (hb : Budget (orAlgo t.algorithm default) t.requests t.rate t.burst) :
    (compileTier name t default).Grounded := by
  refine ⟨internalAlgo_valid ha, ?_, ?_⟩
  all_goals
    simp only [compileTier, internalAlgo_bucket]
    unfold Budget at hb
    split_ifs at hb ⊢ with h
  · exact toNat_pos hb.2
  · exact toNat_pos hb
  · exact fun _ => hb.1
  · exact fun h' => absurd h' h

theorem mem_compileEntries {es : List DescriptorEntry} {e : Gate.DescriptorEntry} :
    e ∈ compileEntries es ↔ ∃ d ∈ es, compileEntry d = e := by
  induction es with
  | nil => simp [compileEntries]
  | cons d ds ih => simp [compileEntries, ih, eq_comm]

theorem map_compileEntries {β : Type} {g : DescriptorEntry → β} {g' : Gate.DescriptorEntry → β}
    (h : ∀ d, g' (compileEntry d) = g d) (es : List DescriptorEntry) : (compileEntries es).map g' = es.map g := by
  induction es with
  | nil => rfl
  | cons d ds ih => rw [compileEntries, List.map_cons, List.map_cons, h, ih]

theorem Level.compile {es : List DescriptorEntry} (h : Level es) : Decide.Level (compileEntries es) := by
  induction h with
  | @mk es named distinct limits _ ih =>
    refine .mk ?_ ?_ ?_ ?_
    · intro e he
      obtain ⟨d, hd, rfl⟩ := mem_compileEntries.mp he
      cases d
      exact named _ hd
    · rw [map_compileEntries (g := fun e => (e.key, e.value)) fun d => by cases d; rfl]
      exact distinct
    · intro e he l hl
      obtain ⟨d, hd, rfl⟩ := mem_compileEntries.mp he
      obtain ⟨key, value, limit, mode, entries⟩ := d
      obtain ⟨dl, hdl, rfl⟩ := Option.map_eq_some_iff.mp hl
      have hs := limits _ hd dl hdl
      refine ⟨compileSpec_grounded hs.algorithm hs.budget, ?_⟩
      rcases hs.window with hw | hw
      · exact .inl (internalAlgo_bucket.mpr hw)
      · exact .inr hw
    · intro e he
      obtain ⟨d, hd, rfl⟩ := mem_compileEntries.mp he
      cases d
      exact ih _ hd

end Config

theorem Decide.matching_mem {level : List DescriptorEntry} {key value : String} {e : DescriptorEntry}
    (h : matching level key value = some e) : e ∈ level ∧ e.key = key ∧ e.value = value :=
  ⟨List.mem_of_find?_eq_some h, by simpa using List.find?_some h⟩

theorem Decide.find_eq_some {cfg : GatewayConfig} {domain limitID : String} {l : LimitSpec} :
    find cfg domain limitID = some l ↔ ∃ d e, findDomain cfg domain = some d ∧ limitID ≠ "" ∧
      findPath d.entries (split '/' limitID) = some (some e) ∧ e.limit = some l := by
  unfold find
  by_cases hn : limitID = ""
  · simp [hn]
  · simp only [hn, if_false, Option.bind_eq_bind, Option.bind_eq_some_iff, ne_eq, not_false_eq_true, true_and]
    constructor
    · rintro ⟨d, hd, o, ho, e, rfl, hl⟩
      exact ⟨d, e, hd, ho, hl⟩
    · rintro ⟨d, e, hd, ho, hl⟩
      exact ⟨d, hd, _, ho, e, rfl, hl⟩

/-- What a path leads to is a limit of the tree. -/
theorem Decide.findPath_level {level : List DescriptorEntry} (hl : Level level) {segs : List String}
    {e : DescriptorEntry} (h : findPath level segs = some (some e)) :
    ∀ l, e.limit = some l → l.Grounded ∧ (l.algorithm = .tokenBucket ∨ second ≤ l.window) := by
  induction segs generalizing level with
  | nil => cases h
  | cons seg segs ih =>
    obtain ⟨node, hnode, h⟩ := Option.bind_eq_some_iff.mp h
    obtain ⟨hmem, -, -⟩ := matching_mem hnode
    obtain ⟨-, -, limits, deeper⟩ := hl
    obtain ⟨last, hlast, h⟩ := Option.bind_eq_some_iff.mp h
    cases last with
    | none =>
      cases h
      exact limits _ hmem
    | some last =>
      cases h
      exact ih (deeper _ hmem) hlast

namespace Config

section
variable {lib : Library} {f : File}

theorem findDomain_compile (hf : f.Sound lib) {domain : String} {d : Gate.DescriptorDomain}
    (h : Decide.findDomain (compile f).limiting domain = some d) : Decide.Level d.entries := by
  have hmem : d ∈ (compile f).descriptors := List.mem_of_find?_eq_some h
  obtain ⟨c, hc, rfl⟩ := List.mem_map.mp hmem
  exact (hf.levels c hc).2.compile

/-- A descriptor limit the hub finds can be kept. -/
theorem find_compile (hf : f.Sound lib) {domain limitID : String} {l : LimitSpec}
    (h : Decide.find (compile f).limiting domain limitID = some l) :
    l.Grounded ∧ (l.algorithm = .tokenBucket ∨ second ≤ l.window) := by
  obtain ⟨d, e, hd, -, hpath, hl⟩ := Decide.find_eq_some.mp h
  exact Decide.findPath_level (findDomain_compile hf hd) hpath l hl

/-- A service the hub finds is one of the file, under its prefix's window. -/
theorem hub_findService (hf : f.Sound lib) {scope service : String} {p : PrefixConfig} {svc : ServiceConfig}
    (h : (compile f).limiting.findService scope service = some (p, svc)) :
    ∃ s ∈ f.services, svc = (compileService s).limiting ∧ p.quotaPeriod = s.limits.window ∧
      s.group = trimSpace scope ∧ s.name = trimSpace service := by
  rw [limiting_findService] at h
  obtain ⟨⟨p', svc'⟩, hfind, heq⟩ := Option.map_eq_some_iff.mp h
  obtain ⟨rfl, rfl⟩ := Prod.mk.inj heq
  obtain ⟨s, hs, t, ht, hg, rfl, rfl, hname, hid⟩ := findService_compile hfind
  exact ⟨s, hs, rfl, (hf.group_settings ht hs hg).1, hname, hid⟩

theorem findLimit_compile {s : Service} (hs : s.Sound lib) {limitID : String} {l : LimitSpec}
    (h : findLimit (compileService s).limiting limitID = some l) :
    ∃ a ∈ s.limits.also, l = (compileExtra a).toLimitSpec ∧ a.name = limitID ∧ a.Sound := by
  have hmem : l ∈ (compileService s).limiting.limits := List.mem_of_find?_eq_some h
  have hid : l.id = limitID := by simpa using List.find?_some h
  obtain ⟨x, hx, rfl⟩ := List.mem_map.mp hmem
  obtain ⟨a, ha, rfl⟩ := List.mem_map.mp hx
  exact ⟨a, ha, rfl, hid, hs.limits.also a ha⟩

theorem compileExtra_grounded {a : ExtraLimit} (ha : a.Sound) : (compileExtra a).toLimitSpec.Grounded :=
  compileSpec_grounded ha.algorithm ha.budget

theorem orAlgo_valid {a d : Algo} (ha : a.valid = true) (hd : d.valid = true) : (orAlgo a d).valid = true := by
  unfold orAlgo
  split_ifs
  · exact hd
  · exact ha

/-- A tier the hub finds is one of the service's or the one behind `when_hub_unavailable`. -/
theorem findTier_compile {s : Service} {tier : String} {t : TierConfig}
    (h : findTier (compileService s).limiting tier = some t) :
    t.tierID = tier ∧
      ((∃ u, s.limits.tiers.lookup tier = some u ∧ t = (compileTier tier u s.limits.algorithm).toTierConfig) ∨
        ∃ fb, s.limits.whenHubUnavailable = some fb ∧ tier = safetyTierID ∧
          t = (compileTier safetyTierID { requests := fb.allow } .unset).toTierConfig) := by
  unfold findTier at h
  split at h
  · rename_i t' hfind
    cases h
    have hid : t.tierID = tier := by simpa using List.find?_some hfind
    obtain ⟨x, hx, rfl⟩ := List.mem_map.mp (List.mem_of_find?_eq_some hfind)
    obtain ⟨name, u, hu, rfl⟩ := mem_compileService_tiers.mp hx
    obtain rfl : name = tier := hid
    exact ⟨rfl, .inl ⟨u, hu, rfl⟩⟩
  · obtain ⟨hsafe, hid⟩ := Option.filter_eq_some_iff.mp h
    obtain ⟨x, hx, rfl⟩ := Option.map_eq_some_iff.mp hsafe
    obtain ⟨fb, hfb, rfl⟩ := Option.map_eq_some_iff.mp hx
    have hid : safetyTierID = tier := of_decide_eq_true hid
    exact ⟨hid, .inr ⟨fb, hfb, hid.symm, rfl⟩⟩

theorem findTier_grounded {s : Service} (hs : s.Sound lib) {tier : String} {t : TierConfig}
    (h : findTier (compileService s).limiting tier = some t) : t.Grounded := by
  obtain ⟨-, ⟨u, hu, rfl⟩ | ⟨fb, hfb, -, rfl⟩⟩ := findTier_compile h
  · have ht := hs.limits.tiers _ u hu
    exact compileTier_grounded (orAlgo_valid ht.algorithm hs.limits.algorithm) ht.budget
  · exact compileTier_grounded (t := { requests := fb.allow }) rfl (hs.limits.fallback fb hfb)

end

end Config

end Gate
