import Gate.Sanity.Validate

/-! The config a file compiles to: its prefixes are the path groups, in the order of their first
services, and every lookup in it leads back to a service of the file. -/

namespace Gate.Config

/-! ### Groups -/

/-- The prefix made of the services of one group, with the settings of `s`. -/
def prefixOf (ss : List Service) (s : Service) : Types.PrefixConfig where
  name := s.group
  quotaPeriod := s.limits.window
  leasing := ⟨s.limits.leaseSize, 0, 0, 0⟩
  services := (ss.filter fun t => t.group = s.group).map compileService

@[simp] theorem prefixOf_name (ss : List Service) (s : Service) : (prefixOf ss s).name = s.group := rfl

@[simp] theorem prefixOf_quotaPeriod (ss : List Service) (s : Service) :
    (prefixOf ss s).quotaPeriod = s.limits.window := rfl

theorem mem_prefixOf {ss : List Service} {s : Service} {svc : Types.ServiceConfig} :
    svc ∈ (prefixOf ss s).services ↔ ∃ t ∈ ss, t.group = s.group ∧ compileService t = svc := by
  simp [prefixOf, and_assoc]

/-- The prefixes of a list of services. -/
structure Grouped (ss : List Service) (ps : List Types.PrefixConfig) : Prop where
  distinct : (ps.map (·.name)).Nodup
  covered : ∀ s ∈ ss, ∃ p ∈ ps, p.name = s.group
  made : ∀ p ∈ ps, ∃ s ∈ ss, p = prefixOf ss s

theorem prefixOf_snoc_same {ss : List Service} {s t : Service} (h : t.group = s.group) :
    prefixOf (ss ++ [t]) s = { prefixOf ss s with
      services := (prefixOf ss s).services ++ [compileService t] } := by
  simp [prefixOf, List.filter_append, h]

theorem prefixOf_snoc_other {ss : List Service} {s t : Service} (h : t.group ≠ s.group) :
    prefixOf (ss ++ [t]) s = prefixOf ss s := by
  simp [prefixOf, List.filter_append, h]

theorem Grouped.add_known {ss : List Service} {ps : List Types.PrefixConfig} {t : Service}
    (h : Grouped ss ps) (hg : ∃ p ∈ ps, p.name = t.group) :
    Grouped (ss ++ [t]) (ps.map fun p =>
      if p.name = t.group then { p with services := p.services ++ [compileService t] } else p) := by
  have hname : ∀ p : Types.PrefixConfig, (if p.name = t.group
      then { p with services := p.services ++ [compileService t] } else p).name = p.name := by
    intro p
    split_ifs <;> rfl
  refine ⟨?_, ?_, ?_⟩
  · rw [List.map_map]
    simpa only [Function.comp_def, hname] using h.distinct
  · intro s hs
    have hold : ∃ p ∈ ps, p.name = s.group := by
      rcases List.mem_append.mp hs with hs | hs
      · exact h.covered s hs
      · exact List.mem_singleton.mp hs ▸ hg
    obtain ⟨p, hp, hps⟩ := hold
    exact ⟨_, List.mem_map_of_mem hp, (hname p).trans hps⟩
  · intro q hq
    obtain ⟨p, hp, rfl⟩ := List.mem_map.mp hq
    obtain ⟨s, hs, rfl⟩ := h.made p hp
    refine ⟨s, List.mem_append_left _ hs, ?_⟩
    by_cases hn : (prefixOf ss s).name = t.group
    · rw [if_pos hn, prefixOf_snoc_same (Eq.symm hn)]
    · rw [if_neg hn, prefixOf_snoc_other (Ne.symm hn)]

theorem Grouped.add_new {ss : List Service} {ps : List Types.PrefixConfig} {t : Service}
    (h : Grouped ss ps) (hg : ¬ ∃ p ∈ ps, p.name = t.group) :
    Grouped (ss ++ [t]) (ps ++ [prefixOf [t] t]) := by
  have hnone : ss.filter (fun s => s.group = t.group) = [] := by
    refine List.filter_eq_nil_iff.mpr fun s hs hst => hg ?_
    obtain ⟨p, hp, hps⟩ := h.covered s hs
    exact ⟨p, hp, hps.trans (by simpa using hst)⟩
  refine ⟨?_, ?_, ?_⟩
  · rw [List.map_append, List.nodup_append]
    refine ⟨h.distinct, List.nodup_singleton _, fun a ha b hb heq => hg ?_⟩
    obtain ⟨p, hp, rfl⟩ := List.mem_map.mp ha
    rw [List.map_singleton, List.mem_singleton, prefixOf_name] at hb
    exact ⟨p, hp, heq.trans hb⟩
  · intro s hs
    rcases List.mem_append.mp hs with hs | hs
    · obtain ⟨p, hp, hps⟩ := h.covered s hs
      exact ⟨p, List.mem_append_left _ hp, hps⟩
    · rw [List.mem_singleton.mp hs]
      exact ⟨prefixOf [t] t, List.mem_append_right _ (List.mem_singleton_self _), prefixOf_name _ _⟩
  · intro q hq
    rcases List.mem_append.mp hq with hq | hq
    · obtain ⟨s, hs, rfl⟩ := h.made q hq
      have hne : t.group ≠ s.group := fun he => hg ⟨_, hq, (prefixOf_name _ _).trans he.symm⟩
      exact ⟨s, List.mem_append_left _ hs, (prefixOf_snoc_other hne).symm⟩
    · refine ⟨t, List.mem_append_right _ (List.mem_singleton_self _), ?_⟩
      rw [List.mem_singleton.mp hq]
      simp [prefixOf, hnone]

theorem grouped_foldl (ss : List Service) : Grouped ss (ss.foldl addService []) := by
  induction ss using List.reverseRecOn with
  | nil => exact ⟨by simp, by simp, by simp⟩
  | append_singleton ss t ih =>
    rw [List.foldl_append]
    simp only [List.foldl_cons, List.foldl_nil, addService]
    split_ifs with hg
    · exact ih.add_known (by simpa using hg)
    · have := ih.add_new (by simpa using hg)
      rwa [show prefixOf [t] t = ⟨t.group, t.limits.window, ⟨t.limits.leaseSize, 0, 0, 0⟩, [compileService t]⟩ by
        simp [prefixOf]] at this

theorem grouped_compile (f : File) : Grouped f.services (compile f).prefixes := grouped_foldl f.services

/-! ### Lookups -/

theorem limiting_findPrefix (cfg : Types.GatewayConfig) (name : String) :
    cfg.limiting.findPrefix name = (cfg.findPrefix name).map Types.PrefixConfig.limiting := by
  unfold Gate.GatewayConfig.findPrefix Types.GatewayConfig.findPrefix
  split_ifs
  · rfl
  · exact List.find?_map

theorem limiting_findService (cfg : Types.GatewayConfig) (name service : String) :
    cfg.limiting.findService name service =
      (cfg.findService name service).map fun r => (r.1.limiting, r.2.limiting) := by
  unfold Gate.GatewayConfig.findService Types.GatewayConfig.findService
  rw [limiting_findPrefix]
  cases cfg.findPrefix name with
  | none => rfl
  | some p =>
    have : (p.limiting.services.find? fun s => s.serviceID = trimSpace service) =
        (p.services.find? fun s => s.serviceID = trimSpace service).map Types.ServiceConfig.limiting :=
      List.find?_map
    simp only [Option.map_some, Option.bind_eq_bind, Option.bind_some, this]
    cases p.services.find? fun s => s.serviceID = trimSpace service <;> rfl

theorem findPrefix_some {cfg : Types.GatewayConfig} {name : String} {p : Types.PrefixConfig}
    (h : cfg.findPrefix name = some p) : p ∈ cfg.prefixes ∧ p.name = trimSpace name := by
  unfold Types.GatewayConfig.findPrefix at h
  split_ifs at h with hn
  exact ⟨List.mem_of_find?_eq_some h, by simpa using List.find?_some h⟩

theorem findService_some {cfg : Types.GatewayConfig} {name service : String} {p : Types.PrefixConfig}
    {svc : Types.ServiceConfig} (h : cfg.findService name service = some (p, svc)) :
    p ∈ cfg.prefixes ∧ p.name = trimSpace name ∧ svc ∈ p.services ∧ svc.serviceID = trimSpace service := by
  obtain ⟨q, hq, h⟩ := Option.bind_eq_some_iff.mp h
  obtain ⟨v, hv, h⟩ := Option.bind_eq_some_iff.mp h
  obtain ⟨rfl, rfl⟩ := Prod.mk.inj (Option.some.inj h)
  obtain ⟨hp, hname⟩ := findPrefix_some hq
  exact ⟨hp, hname, List.mem_of_find?_eq_some hv, by simpa using List.find?_some hv⟩

/-- A service found in the compiled config is a service of the file. -/
theorem findService_compile {f : File} {name service : String} {p : Types.PrefixConfig}
    {svc : Types.ServiceConfig} (h : (compile f).findService name service = some (p, svc)) :
    ∃ s ∈ f.services, ∃ t ∈ f.services, t.group = s.group ∧ p = prefixOf f.services t ∧
      svc = compileService s ∧ s.group = trimSpace name ∧ s.name = trimSpace service := by
  obtain ⟨hp, hname, hsvc, hid⟩ := findService_some h
  obtain ⟨t, ht, rfl⟩ := (grouped_compile f).made p hp
  obtain ⟨s, hs, hg, rfl⟩ := mem_prefixOf.mp hsvc
  rw [prefixOf_name] at hname
  exact ⟨s, hs, t, ht, hg.symm, rfl, rfl, hg.trans hname, hid⟩

theorem Service.Apart.symm {s t : Service} (h : s.Apart t) : t.Apart s :=
  ⟨h.1.symm, fun hg => ⟨(h.2 hg.symm).1.symm, (h.2 hg.symm).2.symm⟩⟩

instance : Std.Symm Service.Apart := ⟨fun _ _ => Service.Apart.symm⟩

/-- The services of a file by name. -/
theorem File.Sound.eq_of_name {lib : Library} {f : File} (hf : f.Sound lib) {s t : Service}
    (hs : s ∈ f.services) (ht : t ∈ f.services) (h : s.name = t.name) : s = t := by
  by_contra hne
  exact (hf.apart.forall hs ht hne).1 h

theorem File.Sound.group_settings {lib : Library} {f : File} (hf : f.Sound lib) {s t : Service}
    (hs : s ∈ f.services) (ht : t ∈ f.services) (h : s.group = t.group) :
    s.limits.window = t.limits.window ∧ s.limits.leaseSize = t.limits.leaseSize := by
  by_cases hne : s = t
  · subst hne
    exact ⟨rfl, rfl⟩
  · exact (hf.apart.forall hs ht hne).2 h

theorem Service.Sound.group {lib : Library} {s : Service} (hs : s.Sound lib) :
    s.group ≠ "" ∧ ∀ c ∈ s.group.toList, NameChar c := by
  obtain ⟨g, hseg, hg⟩ := hs.segments
  have : s.group = g := by simp [Service.group, hseg]
  rw [this]
  exact segmentRe_chars hg

theorem trimSpace_of_name {s : String} (h : ∀ c ∈ s.toList, NameChar c) : trimSpace s = s :=
  trimSpace_of_plain fun c hc => (h c hc).plain.1

/-- Each service of the file is found under its path. -/
theorem findService_of_mem {lib : Library} {f : File} (hf : f.Sound lib) {s : Service}
    (hs : s ∈ f.services) : ∃ p, (compile f).findService s.group s.name = some (p, compileService s) := by
  have hsound := hf.services s hs
  obtain ⟨hne, hchars⟩ := hsound.group
  have hgroup := trimSpace_of_name hchars
  have hname := trimSpace_of_name (nameRe_chars hsound.name).2
  obtain ⟨p, hp, hpname⟩ := (grouped_compile f).covered s hs
  obtain ⟨q, hq⟩ : ∃ q, ((compile f).prefixes.find? fun p => p.name = s.group) = some q :=
    Option.isSome_iff_exists.mp (List.find?_isSome.mpr ⟨p, hp, by simpa using hpname⟩)
  obtain ⟨t, -, rfl⟩ := (grouped_compile f).made q (List.mem_of_find?_eq_some hq)
  have htg : t.group = s.group := by
    have hd := List.find?_some hq
    exact of_decide_eq_true hd
  obtain ⟨v, hv⟩ : ∃ v, ((prefixOf f.services t).services.find? fun v => v.serviceID = s.name) = some v :=
    Option.isSome_iff_exists.mp (List.find?_isSome.mpr
      ⟨compileService s, mem_prefixOf.mpr ⟨s, hs, htg.symm, rfl⟩, by simp [compileService]⟩)
  obtain ⟨r, hr, -, rfl⟩ := mem_prefixOf.mp (List.mem_of_find?_eq_some hv)
  have hrs : r.name = s.name := by simpa [compileService] using List.find?_some hv
  obtain rfl := hf.eq_of_name hr hs hrs
  refine ⟨prefixOf f.services t, ?_⟩
  simp only [Types.GatewayConfig.findService, Types.GatewayConfig.findPrefix, hgroup, hname, hne,
    if_false, hq, hv, Option.bind_eq_bind, Option.bind_some, Option.pure_def]

theorem mem_compileService_tiers {s : Service} {t : Types.TierConfig} :
    t ∈ (compileService s).tiers ↔
      ∃ name u, s.limits.tiers.lookup name = some u ∧ compileTier name u s.limits.algorithm = t := by
  rw [compileService, List.mem_map]
  constructor
  · rintro ⟨name, hmem, rfl⟩
    obtain ⟨u, hu⟩ := Option.isSome_iff_exists.mp (AList.lookup_isSome.mpr (mem_sortedTierNames.mp hmem))
    exact ⟨name, u, hu, by rw [hu, Option.getD_some]⟩
  · rintro ⟨name, u, hu, rfl⟩
    refine ⟨name, ?_, by rw [hu, Option.getD_some]⟩
    rw [mem_sortedTierNames, ← AList.lookup_isSome, hu]
    rfl

end Gate.Config
