import Gate.Lib.Fields
import Gate.Lib.Groups
import Gate.Sanity.Compile
import Gate.Spec.ConfigDiff

/-! The report on a config update: its scopes are those the two configs call for, each once and in
order, whatever order the maps are visited in. -/

namespace Gate

namespace ConfigDiff

variable {k : String} {scope : InvalidationScope} {st : State}

/-! Maps. -/

theorem lookup_insert_ite {α : Type} (m : GoMap α) (key : String) (v : α) :
    (m.insert key v).lookup k = if k = key then some v else m.lookup k := by
  split_ifs with h
  · rw [h, AList.lookup_insert]
  · exact AList.lookup_insert_ne h

theorem lookup_byName {α : Type} (name : α → String) (l : List α) :
    (byName name l).lookup k = l.reverse.find? fun x => name x = k := by
  induction l using List.reverseRecOn with
  | nil => rfl
  | append_singleton l x ih =>
    rw [byName, List.foldl_append, List.foldl_cons, List.foldl_nil, lookup_insert_ite, List.reverse_append, List.reverse_singleton,
      List.singleton_append, List.find?_cons]
    by_cases h : name x = k
    · simp [h]
    · rw [if_neg (Ne.symm h), show decide (name x = k) = false by simpa using h]
      exact ih

/-- What a map holds for a key is what a visit of its entries shows. -/
theorem lookup_eq_some_iff_mem {α : Type} {m : GoMap α} {v : α} : m.lookup k = some v ↔ ⟨k, v⟩ ∈ m.entries := by
  rw [← Option.mem_def, AList.mem_lookup_iff]

section Visits

variable (ord : MapOrder)

theorem mem_visit {α : Type} {m : GoMap α} {x : MapEntry α} :
    x ∈ ord.visit m.entries ↔ m.lookup x.1 = some x.2 := by
  rw [(ord.perm _).mem_iff, lookup_eq_some_iff_mem]

theorem visit_nodup {α : Type} (m : GoMap α) : ((ord.visit m.entries).map Sigma.fst).Nodup :=
  ((ord.perm _).map _).nodup_iff.mpr m.nodupKeys

theorem mem_sortedScopes {m : GoMap InvalidationScope} : scope ∈ sortedScopes ord m ↔ ∃ key, m.lookup key = some scope := by
  rw [sortedScopes, (List.mergeSort_perm _ _).mem_iff, List.mem_map]
  constructor
  · rintro ⟨x, hx, rfl⟩
    exact ⟨x.1, (mem_visit ord).mp hx⟩
  · rintro ⟨key, hkey⟩
    exact ⟨⟨key, scope⟩, (mem_visit ord).mpr hkey, rfl⟩

end Visits

/-! Scopes under their keys. -/

def keyOf (name id : String) : String := scopeKey ⟨name, id, "", ""⟩

theorem keyOf_toList (name id : String) : (keyOf name id).toList = name.toList ++ '|' :: id.toList := by
  simp [keyOf, scopeKey, String.toList_append]

theorem keyOf_inj_right {name id id' : String} (h : keyOf name id = keyOf name id') : id = id' := by
  have hl := congrArg String.toList h
  rw [keyOf_toList, keyOf_toList] at hl
  exact String.toList_inj.mp (List.cons.inj (List.append_cancel_left hl)).2

/-- The bar ends the name: one without a bar is read back from the key. -/
theorem keyOf_inj_left {name name' id id' : String} (hn : '|' ∉ name.toList) (hn' : '|' ∉ name'.toList)
    (h : keyOf name id = keyOf name' id') : name = name' := by
  have hl := congrArg (fun s => s.toList.splitOn '|') h
  simp only [keyOf_toList, Fields.splitOn_snoc, Fields.splitOn_plain hn, Fields.splitOn_plain hn', List.singleton_append] at hl
  exact String.toList_inj.mp (List.cons.inj hl).1

theorem lookup_add {s : GoMap InvalidationScope} {c : InvalidationScope} (hp : c.pfx ≠ "") : (addInvalidationScope s c).lookup k =
    if k = scopeKey c then some (((s.lookup (scopeKey c)).map (fillIn · c)).getD c) else s.lookup k := by
  unfold addInvalidationScope
  rw [if_neg hp]
  cases s.lookup (scopeKey c) with
  | none => exact lookup_insert_ite s _ _
  | some e => exact lookup_insert_ite s _ _

/-! One service. -/

section Services

variable {name id p m r : String} {o n : Types.ServiceConfig} {newServices : GoMap Types.ServiceConfig}

theorem lookup_note_new (hname : name ≠ "") (hnone : st.invalidations.lookup (keyOf name id) = none) :
    (st.note p ⟨name, id, m, r⟩).invalidations.lookup k =
      if k = keyOf name id then some ⟨name, id, m, r⟩ else st.invalidations.lookup k := by
  have h := lookup_add (k := k) (s := st.invalidations) (c := ⟨name, id, m, r⟩) hname
  rw [show scopeKey ⟨name, id, m, r⟩ = keyOf name id from rfl, hnone] at h
  exact h

/-- One check of a service: a reason that is there is kept, and a scope without a mode adds none. -/
theorem lookup_check {c : Bool} (hname : name ≠ "")
    (hold : ∀ e, st.invalidations.lookup (keyOf name id) = some e → e.reason ≠ "") :
    (if c then st.note p ⟨name, id, "", r⟩ else st).invalidations.lookup k =
      if k = keyOf name id then (st.invalidations.lookup k).or (if c then some ⟨name, id, "", r⟩ else none)
      else st.invalidations.lookup k := by
  cases c with
  | false => simp
  | true =>
    refine (lookup_add (c := ⟨name, id, "", r⟩) hname).trans ?_
    rw [show scopeKey ⟨name, id, "", r⟩ = keyOf name id from rfl]
    by_cases hk : k = keyOf name id
    · subst hk
      cases hsome : st.invalidations.lookup (keyOf name id) with
      | none => simp
      | some e => simp [fillIn, hold e hsome]
    · rw [if_neg hk, if_neg hk]

theorem reason_check {c : Bool} (hname : name ≠ "") (hreason : r ≠ "")
    (hold : ∀ e, st.invalidations.lookup (keyOf name id) = some e → e.reason ≠ "") (e : InvalidationScope)
    (he : (if c then st.note p ⟨name, id, "", r⟩ else st).invalidations.lookup (keyOf name id) = some e) : e.reason ≠ "" := by
  rw [lookup_check hname hold, if_pos rfl, Option.or_eq_some_iff] at he
  rcases he with he | ⟨-, he⟩
  · exact hold e he
  · split_ifs at he
    obtain rfl := Option.some.inj he
    exact hreason

theorem noteTiers_invalidations : (noteTiers name id o n st).invalidations =
    (if tiersChanged o n then st.note "tiers" ⟨name, id, "", "tiers_changed"⟩ else st).invalidations := by
  unfold noteTiers
  split_ifs <;> rfl

/-- The first check that finds a difference gives the reason. -/
theorem lookup_kept (hname : name ≠ "") (hnone : st.invalidations.lookup (keyOf name id) = none) :
    (noteTiers name id o n (noteBehavior name id o n (noteCache name id o n st))).invalidations.lookup k =
      if k = keyOf name id then serviceScope name id o (some n) else st.invalidations.lookup k := by
  have h₀ : ∀ e, st.invalidations.lookup (keyOf name id) = some e → e.reason ≠ "" := by
    intro e he
    rw [hnone] at he
    exact absurd he (Option.some_ne_none e).symm
  have h₁ := reason_check (p := "cache") (c := cacheChanged o n) hname (by decide : "cache_config_changed" ≠ "") h₀
  have h₂ := reason_check (p := "services") (c := behaviorChanged o n) hname (by decide : "service_behavior_changed" ≠ "") h₁
  rw [noteTiers_invalidations]
  unfold noteBehavior noteCache
  rw [lookup_check hname h₂, lookup_check hname h₁, lookup_check hname h₀]
  by_cases hk : k = keyOf name id
  · simp only [if_pos hk]
    rw [hk, hnone]
    change _ = (changeReason o n).map _
    unfold changeReason
    cases cacheChanged o n <;> cases behaviorChanged o n <;> cases tiersChanged o n <;> rfl
  · simp only [if_neg hk]

theorem lookup_diffService {x : MapEntry Types.ServiceConfig} (hname : name ≠ "")
    (hnone : st.invalidations.lookup (keyOf name x.1) = none) :
    (diffService name newServices st x).invalidations.lookup k =
      if k = keyOf name x.1 then serviceScope name x.1 x.2 (newServices.lookup x.1) else st.invalidations.lookup k := by
  unfold diffService
  cases newServices.lookup x.1 with
  | none => exact lookup_note_new hname hnone
  | some n =>
    have hanalytics : ∀ st, (noteAnalytics x.2 n st).invalidations = st.invalidations := by
      intro st
      unfold noteAnalytics
      split_ifs <;> rfl
    rw [hanalytics]
    exact lookup_kept hname hnone

/-- The loop over the services of a prefix: each adds its scope under its own key. -/
theorem lookup_services (hname : name ≠ "") {l : List (MapEntry Types.ServiceConfig)} (hnodup : (l.map Sigma.fst).Nodup)
    (hfresh : ∀ id, st.invalidations.lookup (keyOf name id) = none) (v : InvalidationScope) :
    (l.foldl (diffService name newServices) st).invalidations.lookup k = some v ↔
      (∃ x ∈ l, k = keyOf name x.1 ∧ serviceScope name x.1 x.2 (newServices.lookup x.1) = some v) ∨
        st.invalidations.lookup k = some v := by
  apply Groups.shows_foldl (fun (st : State) k v => st.invalidations.lookup k = some v)
    (fun (x : MapEntry Types.ServiceConfig) k => k = keyOf name x.1) (fun x k v => k = keyOf name x.1 ∧ serviceScope name x.1 x.2 (newServices.lookup x.1) = some v)
  · intro st x _ hx k v
    have hnone : st.invalidations.lookup (keyOf name x.1) = none := Option.eq_none_iff_forall_ne_some.mpr fun v => hx _ v rfl
    rw [lookup_diffService hname hnone]
    by_cases hk : k = keyOf name x.1
    · subst hk
      simp [hnone]
    · simp [hk]
  · refine (List.pairwise_map.mp hnodup).imp fun {x y} hne k v => ?_
    rintro ⟨rfl, -⟩ hkey
    exact hne (keyOf_inj_right hkey)
  · rintro x - k v rfl
    simp [hfresh x.1]

end Services

/-! One prefix. -/

section Prefixes

variable {ord : MapOrder} {nextByPrefix : GoMap Types.PrefixConfig}

/-- What the report's scopes and its warning are made from. -/
def State.findings (st : State) : GoMap InvalidationScope × Bool := (st.invalidations, st.quotaReduction)

theorem findings_added {n : String} {o : GoMap Types.ServiceConfig} (l : List (MapEntry Types.ServiceConfig)) (st : State) :
    (l.foldl (diffAdded n o) st).findings = st.findings := by
  induction l generalizing st with
  | nil => rfl
  | cons x l ih =>
    rw [List.foldl_cons, ih]
    unfold diffAdded
    split_ifs <;> rfl

theorem findings_quota {name : String} {old new : Types.PrefixConfig} : (diffQuota name old new st).findings = st.findings := by
  unfold diffQuota
  split_ifs <;> rfl

theorem lookup_diffPrefix {x : MapEntry Types.PrefixConfig} (hname : x.1 ≠ "")
    (hfresh : ∀ id, st.invalidations.lookup (keyOf x.1 id) = none) (v : InvalidationScope) :
    (diffPrefix ord nextByPrefix st x).invalidations.lookup k = some v ↔
      (∃ id, k = keyOf x.1 id ∧ prefixScope x.1 id x.2 (nextByPrefix.lookup x.1) = some v) ∨ st.invalidations.lookup k = some v := by
  unfold diffPrefix
  cases nextByPrefix.lookup x.1 with
  | none =>
    have h : (addInvalidationScope st.invalidations ⟨x.1, "", "mark-expire", "prefix_removed"⟩).lookup k =
        if k = keyOf x.1 "" then some ⟨x.1, "", "mark-expire", "prefix_removed"⟩ else st.invalidations.lookup k :=
      lookup_note_new (p := "prefixes") hname (hfresh "")
    refine (Eq.congr_left h).trans ?_
    split_ifs with hk
    · subst hk
      rw [hfresh]
      constructor
      · intro hv
        exact .inl ⟨"", rfl, hv⟩
      · rintro (⟨id, hk, hv⟩ | hv)
        · obtain rfl := keyOf_inj_right hk
          exact hv
        · exact absurd hv (Option.some_ne_none v).symm
    · refine ⟨.inr, ?_⟩
      rintro (⟨id, rfl, hv⟩ | hv)
      · -- only the scope of the whole prefix is there
        unfold prefixScope at hv
        split_ifs at hv with hid
        exact absurd (congrArg _ hid) hk
      · exact hv
  | some new =>
    have hquota : (diffQuota x.1 x.2 new st).invalidations = st.invalidations := congrArg Prod.fst findings_quota
    have hadded := fun l st => congrArg Prod.fst
      (findings_added (o := byName Types.ServiceConfig.serviceID x.2.services) (n := x.1) l st)
    refine (Eq.congr_left (congrArg _ (hadded _ _))).trans ?_
    refine (lookup_services hname (visit_nodup ord _) (fun id => hquota ▸ hfresh id) v).trans ?_
    rw [hquota]
    refine or_congr_left ?_
    simp only [mem_visit, lookup_byName, Sigma.exists]
    constructor
    · rintro ⟨id, o, ho, hk, hv⟩
      refine ⟨id, hk, ?_⟩
      rw [prefixScope, serviceOf, ho]
      exact hv
    · rintro ⟨id, hk, hv⟩
      obtain ⟨o, ho, hv⟩ := Option.bind_eq_some_iff.mp hv
      exact ⟨id, o, ho, hk, hv⟩

end Prefixes

/-! Both configs. -/

section Updates

variable {ord : MapOrder} {current next : Types.GatewayConfig}

/-- A config file that is accepted names its prefixes so. -/
theorem plainNames_compile {lib : Library} {f : Config.File} (hf : f.Sound lib) : PlainNames (Config.compile f) := by
  intro p hp
  obtain ⟨t, ht, rfl⟩ := (Config.grouped_compile f).made p hp
  obtain ⟨hne, hchars⟩ := (hf.services t ht).group
  refine ⟨hne, fun hbar => ?_⟩
  have hname := hchars '|' hbar
  unfold Config.NameChar at hname
  exact absurd hname (by decide)

theorem plain_of_getPrefix (h : PlainNames current) {name : String} {p : Types.PrefixConfig}
    (hp : Edge.getPrefix current name = some p) : name ≠ "" ∧ '|' ∉ name.toList := by
  have hmem := List.mem_reverse.mp (List.mem_of_find?_eq_some hp)
  have hname : p.name = name := by simpa using List.find?_some hp
  exact hname ▸ h p hmem

/-- Of a prefix that is new, and of the runtime settings, only the section is noted. -/
theorem findings_compare : (compare ord current next).findings =
    ((ord.visit (byName Types.PrefixConfig.name current.prefixes).entries).foldl
      (diffPrefix ord (byName Types.PrefixConfig.name next.prefixes)) .start).findings := by
  have hadded : ∀ (l : List (MapEntry Types.PrefixConfig)) (st : State), (l.foldl (fun st x =>
      if x.1 ∈ byName Types.PrefixConfig.name current.prefixes then st
      else { st with sections := mark st.sections "prefixes" }) st).findings = st.findings := by
    intro l
    induction l with
    | nil => exact fun _ => rfl
    | cons x l ih =>
      intro st
      rw [List.foldl_cons, ih]
      split_ifs <;> rfl
  unfold compare
  simp only
  split_ifs
  · exact hadded _ _
  · exact hadded _ _

/-- What the loops leave for a key is what the two configs call for there. -/
theorem lookup_compare (hplain : PlainNames current) (v : InvalidationScope) :
    (compare ord current next).invalidations.lookup k = some v ↔
      ∃ name id, k = keyOf name id ∧ expectedScope current next name id = some v := by
  have hmine : ∀ x ∈ ord.visit (byName Types.PrefixConfig.name current.prefixes).entries, x.1 ≠ "" ∧ '|' ∉ x.1.toList := by
    intro x hx
    rw [mem_visit, lookup_byName] at hx
    exact plain_of_getPrefix hplain hx
  have hloop := Groups.shows_foldl (g := diffPrefix ord (byName Types.PrefixConfig.name next.prefixes))
    (fun (st : State) k v => st.invalidations.lookup k = some v) (fun x k => ∃ id, k = keyOf x.1 id)
    (fun x k v => ∃ id, k = keyOf x.1 id ∧ prefixScope x.1 id x.2 ((byName Types.PrefixConfig.name next.prefixes).lookup x.1) = some v)
    (ord.visit (byName Types.PrefixConfig.name current.prefixes).entries) ?_ ?_ .start ?_ k v
  · rw [show (compare ord current next).invalidations = _ from congrArg Prod.fst findings_compare]
    refine hloop.trans ?_
    simp only [mem_visit, lookup_byName, Sigma.exists]
    constructor
    · rintro (⟨name, old, hold, id, hk, hv⟩ | hv)
      · exact ⟨name, id, hk, Option.bind_eq_some_iff.mpr ⟨old, hold, hv⟩⟩
      · exact absurd hv (Option.some_ne_none v).symm
    · rintro ⟨name, id, hk, hv⟩
      obtain ⟨old, hold, hv⟩ := Option.bind_eq_some_iff.mp hv
      exact .inl ⟨name, old, hold, id, hk, hv⟩
  · intro st x hx hfresh k v
    apply lookup_diffPrefix (hmine x hx).1
    intro id
    exact Option.eq_none_iff_forall_ne_some.mpr fun v => hfresh _ v ⟨id, rfl⟩
  · -- names are visited once, and a key tells its name
    refine List.Pairwise.imp_of_mem ?_ (List.pairwise_map.mp (visit_nodup ord _))
    rintro x y hx hy hne k v ⟨id, rfl, -⟩ ⟨id', hkey⟩
    exact hne (keyOf_inj_left (hmine x hx).2 (hmine y hy).2 hkey)
  · rintro x - k v - hv
    exact absurd hv (Option.some_ne_none v).symm

end Updates

/-! The report. -/

section Reports

variable {ord : MapOrder} {current next : Types.GatewayConfig} {name id : String}

theorem serviceScope_names {o : Types.ServiceConfig} {n : Option Types.ServiceConfig} (h : serviceScope name id o n = some scope) :
    scope.pfx = name ∧ scope.serviceID = id := by
  cases n with
  | none =>
    obtain rfl := Option.some.inj h
    exact ⟨rfl, rfl⟩
  | some n =>
    obtain ⟨reason, -, rfl⟩ := Option.map_eq_some_iff.mp h
    exact ⟨rfl, rfl⟩

theorem expectedScope_names (h : expectedScope current next name id = some scope) : scope.pfx = name ∧ scope.serviceID = id := by
  obtain ⟨old, -, h⟩ := Option.bind_eq_some_iff.mp h
  cases hnew : Edge.getPrefix next name with
  | none =>
    rw [hnew, prefixScope] at h
    split_ifs at h with hid
    obtain rfl := Option.some.inj h
    exact ⟨rfl, hid.symm⟩
  | some new =>
    rw [hnew] at h
    obtain ⟨o, -, h⟩ := Option.bind_eq_some_iff.mp h
    exact serviceScope_names h

theorem mem_responseCache (hplain : PlainNames current) :
    scope ∈ (analyzeConfigUpdate ord (some current) (some next)).responseCache ↔
      expectedScope current next scope.pfx scope.serviceID = some scope := by
  refine (mem_sortedScopes ord).trans ?_
  simp only [lookup_compare hplain]
  constructor
  · rintro ⟨key, name, id, -, h⟩
    obtain ⟨rfl, rfl⟩ := expectedScope_names h
    exact h
  · intro h
    exact ⟨_, _, _, rfl, h⟩

/-- By prefix, then by service. -/
def Before (a b : InvalidationScope) : Prop := a.pfx < b.pfx ∨ a.pfx = b.pfx ∧ a.serviceID < b.serviceID

/-- What the report is sorted by. -/
def place (s : InvalidationScope) : Lex (String × String) := toLex (s.pfx, s.serviceID)

theorem before_iff {a b : InvalidationScope} : Before a b ↔ place a < place b := by
  rw [place, place, Prod.Lex.toLex_lt_toLex, Before]

theorem scopeBefore_iff {a b : InvalidationScope} : scopeBefore a b ↔ place a ≤ place b := by
  unfold scopeBefore place
  rw [Prod.Lex.toLex_le_toLex]
  split_ifs with h
  · simp [h]
  · simp [h, le_iff_lt_or_eq]

/-- No two scopes of the report name the same service. -/
theorem sortedScopes_apart (hplain : PlainNames current) :
    (sortedScopes ord (compare ord current next).invalidations).Pairwise fun a b => place a ≠ place b := by
  refine ((List.mergeSort_perm _ _).pairwise_iff Ne.symm).mpr ?_
  refine List.pairwise_map.mpr (List.Pairwise.imp_of_mem ?_ (List.pairwise_map.mp (visit_nodup ord _)))
  have hown : ∀ x ∈ ord.visit (compare ord current next).invalidations.entries, x.1 = keyOf x.2.pfx x.2.serviceID := by
    intro x hx
    rw [mem_visit, lookup_compare hplain] at hx
    obtain ⟨name, id, hk, hv⟩ := hx
    obtain ⟨rfl, rfl⟩ := expectedScope_names hv
    exact hk
  intro x y hx hy hne hsame
  obtain ⟨hp, hs⟩ := Prod.mk.inj (toLex.injective hsame)
  apply hne
  rw [hown x hx, hown y hy, hp, hs]

theorem responseCache_sorted (hplain : PlainNames current) :
    (analyzeConfigUpdate ord (some current) (some next)).responseCache.Pairwise Before := by
  have htrans : ∀ a b c, scopeBefore a b → scopeBefore b c → scopeBefore a c := by
    intro a b c hab hbc
    rw [scopeBefore_iff] at *
    exact hab.trans hbc
  have htotal : ∀ a b, scopeBefore a b || scopeBefore b a := by
    intro a b
    rw [Bool.or_eq_true, scopeBefore_iff, scopeBefore_iff]
    exact le_total _ _
  have hle := List.pairwise_mergeSort htrans htotal ((ord.visit (compare ord current next).invalidations.entries).map Sigma.snd)
  exact (hle.and (sortedScopes_apart hplain)).imp fun h => before_iff.mpr (lt_of_le_of_ne (scopeBefore_iff.mp h.1) h.2)

end Reports

/-! The warning. -/

section Warnings

variable {ord : MapOrder} {current next : Types.GatewayConfig} {name : String}

/-- A quota of the service goes down. -/
def reduces (o : Types.ServiceConfig) : Option Types.ServiceConfig → Bool
  | some n => tiersChanged o n && hasQuotaReductionBetween o n
  | none => false

theorem quotaReduction_noteCache {id : String} {o n : Types.ServiceConfig} :
    (noteCache name id o n st).quotaReduction = st.quotaReduction := by
  unfold noteCache
  split_ifs <;> rfl

theorem quotaReduction_noteBehavior {id : String} {o n : Types.ServiceConfig} :
    (noteBehavior name id o n st).quotaReduction = st.quotaReduction := by
  unfold noteBehavior
  split_ifs <;> rfl

theorem quotaReduction_noteTiers {id : String} {o n : Types.ServiceConfig} :
    (noteTiers name id o n st).quotaReduction = (st.quotaReduction || reduces o (some n)) := by
  unfold noteTiers
  split_ifs with h
  · simp [reduces, h, State.note]
  · simp [reduces, h]

theorem quotaReduction_noteAnalytics {o n : Types.ServiceConfig} : (noteAnalytics o n st).quotaReduction = st.quotaReduction := by
  unfold noteAnalytics
  split_ifs <;> rfl

theorem quotaReduction_diffService {newServices : GoMap Types.ServiceConfig} {x : MapEntry Types.ServiceConfig} :
    (diffService name newServices st x).quotaReduction = (st.quotaReduction || reduces x.2 (newServices.lookup x.1)) := by
  unfold diffService
  cases newServices.lookup x.1 with
  | none => exact (Bool.or_false _).symm
  | some n =>
    simp only [quotaReduction_noteAnalytics, quotaReduction_noteTiers, quotaReduction_noteBehavior, quotaReduction_noteCache]

theorem quotaReduction_services {newServices : GoMap Types.ServiceConfig} (l : List (MapEntry Types.ServiceConfig)) (st : State) :
    (l.foldl (diffService name newServices) st).quotaReduction =
      (st.quotaReduction || l.any fun x => reduces x.2 (newServices.lookup x.1)) := by
  induction l generalizing st with
  | nil => simp
  | cons x l ih => rw [List.foldl_cons, ih, quotaReduction_diffService, List.any_cons, Bool.or_assoc]

theorem quotaReduction_diffPrefix {nextByPrefix : GoMap Types.PrefixConfig} {x : MapEntry Types.PrefixConfig} :
    (diffPrefix ord nextByPrefix st x).quotaReduction = true ↔ st.quotaReduction = true ∨
      ∃ new id o, nextByPrefix.lookup x.1 = some new ∧ serviceOf x.2 id = some o ∧ reduces o (serviceOf new id) = true := by
  unfold diffPrefix
  cases nextByPrefix.lookup x.1 with
  | none => simp
  | some new =>
    have hquota : (diffQuota x.1 x.2 new st).quotaReduction = st.quotaReduction := congrArg Prod.snd findings_quota
    have hadded := fun l st => congrArg Prod.snd
      (findings_added (o := byName Types.ServiceConfig.serviceID x.2.services) (n := x.1) l st)
    refine (Eq.congr_left (hadded _ _)).trans ?_
    change State.quotaReduction (List.foldl _ _ _) = true ↔ _
    simp only [quotaReduction_services, hquota, Bool.or_eq_true, List.any_eq_true, mem_visit, lookup_byName, Sigma.exists,
      Option.some.injEq]
    refine or_congr_right ⟨?_, ?_⟩
    · rintro ⟨id, o, ho, h⟩
      exact ⟨new, id, o, rfl, ho, h⟩
    · rintro ⟨_, id, o, rfl, ho, h⟩
      exact ⟨id, o, ho, h⟩

theorem quotaReduction_prefixes {nextByPrefix : GoMap Types.PrefixConfig} (l : List (MapEntry Types.PrefixConfig)) (st : State) :
    (l.foldl (diffPrefix ord nextByPrefix) st).quotaReduction = true ↔ st.quotaReduction = true ∨
      ∃ x ∈ l, ∃ new id o, nextByPrefix.lookup x.1 = some new ∧ serviceOf x.2 id = some o ∧ reduces o (serviceOf new id) = true := by
  induction l generalizing st with
  | nil => simp
  | cons x l ih =>
    rw [List.foldl_cons, ih, quotaReduction_diffPrefix, List.exists_mem_cons_iff, or_assoc]

theorem lowersQuota_iff {id : String} : lowersQuota current next name id = true ↔
    ∃ old new o, Edge.getPrefix current name = some old ∧ Edge.getPrefix next name = some new ∧
      serviceOf old id = some o ∧ reduces o (serviceOf new id) = true := by
  unfold lowersQuota
  cases Edge.getPrefix current name with
  | none => simp
  | some old =>
    cases Edge.getPrefix next name with
    | none => simp
    | some new =>
      simp only [Option.bind_some]
      cases ho : serviceOf old id with
      | none => simp [ho]
      | some o =>
        cases hn : serviceOf new id with
        | none => simp [hn, reduces]
        | some n => simp [ho, hn, reduces]

theorem quotaReduction_compare : (compare ord current next).quotaReduction = true ↔ ∃ name id, lowersQuota current next name id := by
  rw [show (compare ord current next).quotaReduction = _ from congrArg Prod.snd findings_compare]
  refine (quotaReduction_prefixes _ .start).trans ?_
  simp only [mem_visit, lookup_byName, Sigma.exists, lowersQuota_iff]
  constructor
  · rintro (h | ⟨name, old, hold, new, id, o, hnew, ho, h⟩)
    · exact absurd h Bool.false_ne_true
    · exact ⟨name, id, old, new, o, hold, hnew, ho, h⟩
  · rintro ⟨name, id, old, new, o, hold, hnew, ho, h⟩
    exact .inr ⟨name, old, hold, new, id, o, hnew, ho, h⟩

end Warnings

end ConfigDiff

open ConfigDiff

/-- The scopes of an update are those its configs call for, each once, by prefix and service, and the
warning is raised when a quota goes down; neither depends on the order the maps are visited in. -/
theorem config_update_report_exact (ord ord' : MapOrder) (current next : Types.GatewayConfig) (hplain : PlainNames current) :
    let report := analyzeConfigUpdate ord (some current) (some next)
    report.responseCache.Pairwise Before ∧
      (∀ scope, scope ∈ report.responseCache ↔ expectedScope current next scope.pfx scope.serviceID = some scope) ∧
      (report.hasQuotaReductionWarning = true ↔ ∃ name id, lowersQuota current next name id) ∧
      report.responseCache = (analyzeConfigUpdate ord' (some current) (some next)).responseCache := by
  intro report
  have hsorted : report.responseCache.Pairwise Before := responseCache_sorted hplain
  have hsorted' : (analyzeConfigUpdate ord' (some current) (some next)).responseCache.Pairwise Before := responseCache_sorted hplain
  have hnodup : ∀ {l : List InvalidationScope}, l.Pairwise Before → l.Nodup :=
    fun h => h.imp fun hab heq => (before_iff.mp hab).ne (congrArg place heq)
  refine ⟨hsorted, fun scope => mem_responseCache hplain, quotaReduction_compare, ?_⟩
  have hperm : report.responseCache.Perm (analyzeConfigUpdate ord' (some current) (some next)).responseCache := by
    apply (List.perm_ext_iff_of_nodup (hnodup hsorted) (hnodup hsorted')).mpr
    intro scope
    exact (mem_responseCache hplain).trans (mem_responseCache hplain).symm
  exact hperm.eq_of_pairwise (fun a b _ _ hab hba => absurd (before_iff.mp hba) (before_iff.mp hab).asymm) hsorted hsorted'

/-- The order of the entries themselves. -/
def entryOrder : MapOrder := ⟨id, fun _ => .refl _⟩

theorem config_update_report_exact_halved :
    let old := Config.compile (Config.ordersFile { requests := 100 })
    let new := Config.compile (Config.ordersFile { requests := 50 })
    ⟨"v1", "orders", "", "tiers_changed"⟩ ∈ (analyzeConfigUpdate entryOrder (some old) (some new)).responseCache ∧
      (analyzeConfigUpdate entryOrder (some old) (some new)).hasQuotaReductionWarning = true := by
  intro old new
  have haccepted : Config.Accepted Config.plainLibrary (Config.ordersFile { requests := 100 }) := by decide +kernel
  obtain ⟨-, hscopes, hwarn, -⟩ := config_update_report_exact entryOrder entryOrder old new (plainNames_compile haccepted.sound)
  constructor
  · exact (hscopes _).mpr (by decide +kernel)
  · exact hwarn.mpr ⟨"v1", "orders", by decide +kernel⟩

end Gate
