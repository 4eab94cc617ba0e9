import Gate.Sanity.Compile
import Gate.Spec.Checks

/-! Compiling a file, reading the runtime model back as a file and compiling that again
(`Compile`, `FromInternal`). Costs of 1 and the settings of a single attempt are not written
back; everything else that a request meets is. -/

namespace Gate.Config

/-- The config a file comes back as. -/
def roundTrip (f : File) : Types.GatewayConfig := compile (fromInternal (compile f))

/-! ### What it means to be the same -/

structure SameTier (a b : Types.TierConfig) : Prop where
  limit : a.toTierConfig = b.toTierConfig
  cost : ∀ method, Edge.methodCost method a = Edge.methodCost method b

/-- The retries of the policy an edge works with. -/
def SameRetries (a b : Types.FailureConfig) : Prop :=
  a.effectiveUpstreamPolicy.maxRetries = b.effectiveUpstreamPolicy.maxRetries ∧
    a.effectiveUpstreamPolicy.retryBackoff = b.effectiveUpstreamPolicy.retryBackoff ∧
    a.effectiveUpstreamPolicy.attemptTimeout = b.effectiveUpstreamPolicy.attemptTimeout

structure SameService (a b : Types.ServiceConfig) : Prop where
  auth : a.authType = b.authType ∧ a.auth.jwt = b.auth.jwt
  tiers : List.Forall₂ SameTier a.tiers b.tiers
  lease : a.lease = b.lease
  limits : a.limits = b.limits
  org : a.org = b.org
  global : a.global = b.global
  cost : a.cost = b.cost
  safetyTier : Option.Rel SameTier a.safetyTier b.safetyTier
  shadow : a.shadow = b.shadow
  maxConcurrent : a.maxConcurrent = b.maxConcurrent
  targets : a.targets = b.targets
  retries : SameRetries a.failure b.failure
  breaker : a.circuitBreaker = b.circuitBreaker

/-- A service with the window and the lease size of its prefix. -/
def SameRoute (a b : Types.PrefixConfig × Types.ServiceConfig) : Prop :=
  a.1.quotaPeriod = b.1.quotaPeriod ∧ a.1.leasing = b.1.leasing ∧ SameService a.2 b.2

/-- The same services by path, the same descriptor trees and the same process settings. -/
structure SameConfig (a b : Types.GatewayConfig) : Prop where
  services : ∀ name service, Option.Rel SameRoute (a.findService name service) (b.findService name service)
  descriptors : a.descriptors = b.descriptors
  runtime : a.runtime = b.runtime

/-- A method priced at 1 is not undercut by the price of other methods. -/
def CostsKept (t : Tier) : Prop :=
  ∀ m ∈ ["GET", "POST", "PUT", "DELETE"], t.costOf m = 1 → t.costOf "*" = 1

/-- A single attempt has no settings of its own. -/
def RetriesKept (r : Retries) : Prop :=
  r.attempts = 1 → r.perAttemptTimeout = 0 ∧ (r.backoff ≤ 0 ∨ r.backoff = 50 * millisecond)

/-! ### Numbers, names and algorithms -/

theorem ofInt_toNat (x : UInt32) : UInt32.ofInt (x.toNat : ℤ) = x := by
  have h : (x.toNat : ℤ) % 2 ^ 32 = x.toNat :=
    Int.emod_eq_of_lt (by omega) (by have := x.toNat_lt; omega)
  unfold UInt32.ofInt
  rw [h, Int.toNat_natCast, UInt32.ofNat_toNat]

theorem internalAlgo_idem (a : Algo) : internalAlgo (internalAlgo a) = internalAlgo a := by
  unfold internalAlgo
  split_ifs <;> rfl

theorem orAlgo_unset (a : Algo) : orAlgo a .unset = a := by
  unfold orAlgo
  split_ifs with h <;> simp [h]

theorem trimSlashes_of_plain {s : String} (h : '/' ∉ s.toList) : trimSlashes s = s := by
  have keep : ∀ l : List Char, '/' ∉ l → l.dropWhile (· = '/') = l := by
    intro l hl
    cases l with
    | nil => rfl
    | cons c l =>
      refine List.dropWhile_cons_of_neg ?_
      simpa using fun hc : c = '/' => hl (hc ▸ List.mem_cons_self ..)
  unfold trimSlashes
  rw [keep _ h, keep _ (by simpa using h), List.reverse_reverse, String.ofList_toList]

/-- A path made of two names splits into them. -/
theorem split_path {g n : String} (hg : g ≠ "") (hn : n ≠ "") (hg' : '/' ∉ g.toList)
    (hn' : '/' ∉ n.toList) : Decide.split '/' (trimSlashes ("/" ++ g ++ "/" ++ n)) = [g, n] := by
  have hgl : g.toList ≠ [] := fun h => hg (String.toList_inj.mp h)
  have hnl : n.toList ≠ [] := fun h => hn (String.toList_inj.mp h)
  have h₁ : ("/" ++ g ++ "/" ++ n).toList.dropWhile (fun c => decide (c = '/')) =
      g.toList ++ '/' :: n.toList := by
    obtain ⟨c, cs, hc⟩ := List.exists_cons_of_ne_nil hgl
    have hcs : c ≠ '/' := fun h => hg' (by rw [hc, h]; exact List.mem_cons_self ..)
    simp [String.toList_append, hc, hcs]
  have h₂ : (g.toList ++ '/' :: n.toList).reverse.dropWhile (fun c => decide (c = '/')) =
      (g.toList ++ '/' :: n.toList).reverse := by
    obtain ⟨c, cs, hc⟩ := List.exists_cons_of_ne_nil (mt List.reverse_eq_nil_iff.mp hnl)
    have hcs : c ≠ '/' := fun h => hn' (List.mem_reverse.mp (by rw [hc, h]; exact List.mem_cons_self ..))
    simp [hc, hcs]
  unfold trimSlashes Decide.split
  rw [h₁, h₂, List.reverse_reverse, String.toList_ofList,
    show g.toList ++ '/' :: n.toList = ['/'].intercalate [g.toList, n.toList] by simp [List.intercalate],
    List.splitOn_intercalate '/' (by simp [hg', hn']) (by simp)]
  simp

/-! ### Descriptors -/

/-- A limit comes back as it was. -/
theorem compileSpec_fromInternal (id : String) (algo : Algo) (requests burst : UInt32) (window : ℤ)
    (rate : ℚ) (shadow : Bool) :
    let l := compileSpec id algo requests burst window rate shadow
    compileSpec id (limitFromInternal l).algorithm (limitFromInternal l).requests (limitFromInternal l).burst
      (limitFromInternal l).window (limitFromInternal l).rate shadow = l := by
  simp only [compileSpec, limitFromInternal]
  by_cases h : internalAlgo algo = .tokenBucket
  · have hb : internalAlgo .tokenBucket = .tokenBucket := rfl
    simp [h, hb, ofInt_toNat]
  · simp [h, ofInt_toNat, internalAlgo_idem]

/-- So does the mode of its entry. -/
theorem limit_again (key mode : String) (l : DescriptorLimit) :
    let c := compileSpec key l.algorithm l.requests l.burst l.window l.rate (mode = "shadow")
    compileSpec key (limitFromInternal c).algorithm (limitFromInternal c).requests (limitFromInternal c).burst
      (limitFromInternal c).window (limitFromInternal c).rate ((if c.shadow then "shadow" else "") = "shadow") =
      c := by
  intro c
  have hmode : decide ((if c.shadow then "shadow" else "") = "shadow") = decide (mode = "shadow") := by
    change decide ((if decide (mode = "shadow") then "shadow" else "") = "shadow") = _
    by_cases hm : mode = "shadow" <;> simp [hm]
  rw [hmode]
  exact compileSpec_fromInternal key l.algorithm l.requests l.burst l.window l.rate (mode = "shadow")

mutual

theorem compileEntry_fromInternal :
    ∀ e : DescriptorEntry, compileEntry (entryFromInternal (compileEntry e)) = compileEntry e
  | .mk key value limit mode entries => by
    cases limit with
    | none => simp only [compileEntry, entryFromInternal, Option.map_none, compileEntries_fromInternal entries]
    | some l =>
      simp only [compileEntry, entryFromInternal, Option.map_some, Option.getD_some,
        compileEntries_fromInternal entries, limit_again]

theorem compileEntries_fromInternal :
    ∀ es : List DescriptorEntry, compileEntries (entriesFromInternal (compileEntries es)) = compileEntries es
  | [] => rfl
  | e :: es => by
    simp only [compileEntries, entriesFromInternal, compileEntry_fromInternal e,
      compileEntries_fromInternal es]

end

/-! ### Process settings -/

theorem positiveOr_again (v d : ℤ) :
    Types.positiveOr (differing (Types.positiveOr (Types.positiveOr v d) d) d 0) d = Types.positiveOr v d := by
  unfold Types.positiveOr differing
  split_ifs <;> omega

theorem textOr_again (v d : String) :
    Types.textOr (differing (Types.textOr (Types.textOr v d) d) d "") d = Types.textOr v d := by
  have h : trimSpace "" = "" := by decide
  unfold Types.textOr differing
  split_ifs <;> simp_all

theorem listOr_again (v d : List String) :
    Types.listOr (differing (Types.listOr (Types.listOr v d) d) d []) d = Types.listOr v d := by
  unfold Types.listOr differing
  split_ifs <;> simp_all

theorem percentOr_again (v d : ℚ) :
    Types.percentOr (differing (Types.percentOr (Types.percentOr v d) d) d 0) d = Types.percentOr v d := by
  unfold Types.percentOr differing
  split_ifs <;> simp_all

theorem compileRuntime_again (r : Runtime) :
    compileRuntime (runtimeFromInternal (compileRuntime r)) = compileRuntime r := by
  simp only [compileRuntime, runtimeFromInternal, Types.RuntimePolicy.effective,
    Types.HubRuntimePolicy.effective, Types.EdgeRuntimePolicy.effective,
    Types.AnalyticsRuntimePolicy.effective, hubFromInternal, edgeFromInternal,
    analyticsRuntimeFromInternal, positiveOr_again, percentOr_again, textOr_again, listOr_again]

/-! ### Tiers -/

theorem lookup_addCost_self (m : GoMap UInt8) (method : String) (c : UInt8) :
    (addCost m method c).lookup method = if 1 < c then some c else m.lookup method := by
  unfold addCost
  split_ifs
  · exact AList.lookup_insert m
  · rfl

theorem lookup_addCost_ne (m : GoMap UInt8) {method other : String} (c : UInt8) (h : other ≠ method) :
    (addCost m method c).lookup other = m.lookup other := by
  unfold addCost
  split_ifs
  · exact AList.lookup_insert_ne h
  · rfl

/-- The price a method comes back with. -/
def priceAgain (own other : UInt8) : UInt8 := if 1 < own then own else if 1 < other then other else 1

theorem costOf_again (own other : UInt8) (m : GoMap UInt8) (method : String)
    (ho : m.lookup method = if 1 < own then some own else none)
    (hs : m.lookup "*" = if 1 < other then some other else none) :
    ({ cost := m } : Tier).costOf method = priceAgain own other := by
  unfold Tier.costOf priceAgain
  rw [ho, hs]
  split_ifs <;> rfl

theorem costs_again (t : Types.TierConfig) :
    (tierFromInternal t).costOf "GET" = priceAgain t.getCost t.otherCost ∧
    (tierFromInternal t).costOf "POST" = priceAgain t.postCost t.otherCost ∧
    (tierFromInternal t).costOf "PUT" = priceAgain t.putCost t.otherCost ∧
    (tierFromInternal t).costOf "DELETE" = priceAgain t.deleteCost t.otherCost ∧
    (tierFromInternal t).costOf "*" = priceAgain t.otherCost t.otherCost := by
  have hstar : (costsFromInternal t).lookup "*" = if 1 < t.otherCost then some t.otherCost else none := by
    rw [costsFromInternal, lookup_addCost_self]
    rw [lookup_addCost_ne _ _ (by decide), lookup_addCost_ne _ _ (by decide),
      lookup_addCost_ne _ _ (by decide), lookup_addCost_ne _ _ (by decide)]
    rfl
  have again : ∀ (method : String) (own : UInt8),
      (costsFromInternal t).lookup method = (if 1 < own then some own else none) →
        (tierFromInternal t).costOf method = priceAgain own t.otherCost :=
    fun method own ho => costOf_again own t.otherCost (costsFromInternal t) method ho hstar
  refine ⟨again _ _ ?_, again _ _ ?_, again _ _ ?_, again _ _ ?_, again _ _ hstar⟩
  · rw [costsFromInternal, lookup_addCost_ne _ _ (by decide), lookup_addCost_ne _ _ (by decide),
      lookup_addCost_ne _ _ (by decide), lookup_addCost_ne _ _ (by decide), lookup_addCost_self]
    rfl
  · rw [costsFromInternal, lookup_addCost_ne _ _ (by decide), lookup_addCost_ne _ _ (by decide),
      lookup_addCost_ne _ _ (by decide), lookup_addCost_self, lookup_addCost_ne _ _ (by decide)]
    rfl
  · rw [costsFromInternal, lookup_addCost_ne _ _ (by decide), lookup_addCost_ne _ _ (by decide),
      lookup_addCost_self, lookup_addCost_ne _ _ (by decide), lookup_addCost_ne _ _ (by decide)]
    rfl
  · rw [costsFromInternal, lookup_addCost_ne _ _ (by decide), lookup_addCost_self,
      lookup_addCost_ne _ _ (by decide), lookup_addCost_ne _ _ (by decide), lookup_addCost_ne _ _ (by decide)]
    rfl

theorem priceAgain_eq {own other : UInt8} (ho : own ≠ 0) (hs : other ≠ 0) :
    priceAgain own other = own ↔ (own = 1 → other = 1) := by
  have pos : ∀ x : UInt8, x ≠ 0 → (1 < x ↔ x ≠ 1) := by
    intro x hx
    rw [UInt8.lt_iff_toNat_lt]
    have h₀ : x.toNat ≠ 0 := fun h => hx (UInt8.toNat_inj.mp h)
    have h₁ : x.toNat = 1 ↔ x = 1 := UInt8.toNat_inj (b := 1)
    have h₂ : (1 : UInt8).toNat = 1 := rfl
    rw [Ne, ← h₁]
    omega
  unfold priceAgain
  rw [if_congr (pos own ho) rfl (if_congr (pos other hs) rfl rfl)]
  by_cases h₁ : own = 1
  · by_cases h₂ : other = 1 <;> simp [h₁, h₂]
  · simp [h₁]

theorem priceAgain_self {c : UInt8} (h : c ≠ 0) : priceAgain c c = c := (priceAgain_eq h h).mpr id

theorem Tier.Sound.costOf_ne_zero {l : Limits} {name : String} {t : Tier} (h : t.Sound l name) (m : String) :
    t.costOf m ≠ 0 := by
  unfold Tier.costOf
  split
  · exact h.costs _ _ ‹_›
  · split
    · exact h.costs _ _ ‹_›
    · decide

/-- The tier a tier comes back as. -/
def tierAgain (c : Types.TierConfig) : Types.TierConfig := compileTier c.tierID (tierFromInternal c) .unset

theorem tierAgain_limit (name : String) (t : Tier) (algo : Algo) :
    (tierAgain (compileTier name t algo)).toTierConfig = (compileTier name t algo).toTierConfig := by
  simp only [tierAgain, compileTier, tierFromInternal, orAlgo_unset, internalAlgo_idem]
  by_cases h : internalAlgo (orAlgo t.algorithm algo) = .tokenBucket
  · simp [h, UInt32.ofNat_toNat]
  · simp [h, UInt32.ofNat_toNat]

/-- A tier keeps its prices just when none of 1 is undercut. -/
theorem sameTier_again {l : Limits} {name : String} {t : Tier} (h : t.Sound l name) (algo : Algo) :
    SameTier (tierAgain (compileTier name t algo)) (compileTier name t algo) ↔ CostsKept t := by
  obtain ⟨hget, hpost, hput, hdelete, hother⟩ := costs_again (compileTier name t algo)
  have nz := h.costOf_ne_zero
  have price : ∀ m, (priceAgain (t.costOf m) (t.costOf "*") = t.costOf m) ↔ (t.costOf m = 1 → t.costOf "*" = 1) :=
    fun m => priceAgain_eq (nz m) (nz "*")
  have hg : (tierAgain (compileTier name t algo)).getCost = priceAgain (t.costOf "GET") (t.costOf "*") := hget
  have hp : (tierAgain (compileTier name t algo)).postCost = priceAgain (t.costOf "POST") (t.costOf "*") := hpost
  have hu : (tierAgain (compileTier name t algo)).putCost = priceAgain (t.costOf "PUT") (t.costOf "*") := hput
  have hd : (tierAgain (compileTier name t algo)).deleteCost = priceAgain (t.costOf "DELETE") (t.costOf "*") := hdelete
  have ho : (tierAgain (compileTier name t algo)).otherCost = t.costOf "*" := hother.trans (priceAgain_self (nz "*"))
  constructor
  · intro hs m hm
    have hc := hs.cost m
    rw [← price m, ← UInt8.toNat_inj]
    simp only [List.mem_cons, List.not_mem_nil, or_false] at hm
    rcases hm with rfl | rfl | rfl | rfl
    · rw [← hg]
      exact Int.ofNat.inj hc
    · rw [← hp]
      exact Int.ofNat.inj hc
    · rw [← hu]
      exact Int.ofNat.inj hc
    · rw [← hd]
      exact Int.ofNat.inj hc
  · intro hk
    refine ⟨tierAgain_limit name t algo, fun method => ?_⟩
    have kept : ∀ m ∈ ["GET", "POST", "PUT", "DELETE"], priceAgain (t.costOf m) (t.costOf "*") = t.costOf m :=
      fun m hm => (price m).mpr (hk m hm)
    unfold Edge.methodCost
    rw [hg, hp, hu, hd, ho, kept "GET" (by simp), kept "POST" (by simp), kept "PUT" (by simp),
      kept "DELETE" (by simp)]
    rfl

/-- Reading the tiers back finds each under its name. -/
theorem lookup_tiersFromInternal {ts : List Types.TierConfig} (hn : (ts.map (·.tierID)).Nodup)
    {t : Types.TierConfig} (ht : t ∈ ts) :
    (tiersFromInternal ts).lookup t.tierID = some (tierFromInternal t) := by
  induction ts using List.reverseRecOn with
  | nil => cases ht
  | append_singleton ts u ih =>
    rw [List.map_append, List.nodup_append] at hn
    rw [tiersFromInternal, List.foldl_append, List.foldl_cons, List.foldl_nil]
    rcases List.mem_append.mp ht with ht | ht
    · have hne : t.tierID ≠ u.tierID :=
        hn.2.2 _ (List.mem_map_of_mem ht) _ (by simp)
      rw [AList.lookup_insert_ne hne]
      exact ih hn.1 ht
    · rw [List.mem_singleton.mp ht]
      exact AList.lookup_insert _

theorem mem_tiersFromInternal {ts : List Types.TierConfig} {n : String} :
    n ∈ tiersFromInternal ts ↔ n ∈ ts.map (·.tierID) := by
  induction ts using List.reverseRecOn with
  | nil => simp [tiersFromInternal]
  | append_singleton ts u ih =>
    rw [tiersFromInternal, List.foldl_append, List.foldl_cons, List.foldl_nil, AList.mem_insert,
      ← tiersFromInternal, ih, List.map_append, List.mem_append, or_comm]
    simp

theorem sortedTierNames_sorted (m : GoMap Tier) : (sortedTierNames m).Pairwise (· ≤ ·) :=
  List.pairwise_insertionSort _ _

theorem sortedTierNames_nodup (m : GoMap Tier) : (sortedTierNames m).Nodup :=
  (List.perm_insertionSort _ _).nodup_iff.mpr m.keys_nodup

theorem sortedTierNames_congr {m m' : GoMap Tier} (h : ∀ n, n ∈ m ↔ n ∈ m') :
    sortedTierNames m = sortedTierNames m' := by
  refine List.Perm.eq_of_pairwise (fun a b _ _ => String.le_antisymm) (sortedTierNames_sorted m)
    (sortedTierNames_sorted m') ?_
  rw [List.perm_ext_iff_of_nodup (sortedTierNames_nodup m) (sortedTierNames_nodup m')]
  exact fun n => mem_sortedTierNames.trans ((h n).trans mem_sortedTierNames.symm)

theorem tierIDs_compileService (s : Service) :
    (compileService s).tiers.map (·.tierID) = sortedTierNames s.limits.tiers := by
  rw [compileService, List.map_map]
  exact List.map_id' _

/-- The tiers a service comes back with. -/
theorem tiers_again (s : Service) (p : Types.PrefixConfig) (group : String) :
    (compileService (serviceFromInternal group p (compileService s))).tiers =
      (compileService s).tiers.map tierAgain := by
  have hids := tierIDs_compileService s
  have hnodup : ((compileService s).tiers.map (·.tierID)).Nodup := hids ▸ sortedTierNames_nodup _
  have hnames : sortedTierNames (tiersFromInternal (compileService s).tiers) =
      (compileService s).tiers.map (·.tierID) := by
    rw [hids]
    refine sortedTierNames_congr fun n => ?_
    rw [mem_tiersFromInternal, hids, mem_sortedTierNames]
  change (sortedTierNames (tiersFromInternal (compileService s).tiers)).map (fun name =>
    compileTier name (((tiersFromInternal (compileService s).tiers).lookup name).getD {}) .unset) = _
  rw [hnames, List.map_map]
  refine List.map_congr_left fun t ht => ?_
  simp only [Function.comp_apply, lookup_tiersFromInternal hnodup ht, Option.getD_some, tierAgain]

/-! ### Services -/

theorem auth_again {a : Option Auth} (h : ∀ x, a = some x → x.type ∈ authTypes ∧ (x.type ≠ "jwt" → x.jwt = none)) :
    orDefault (compileAuth (authFromInternal (compileAuth a))).type "api_key" =
        orDefault (compileAuth a).type "api_key" ∧
      (compileAuth (authFromInternal (compileAuth a))).jwt = (compileAuth a).jwt := by
  cases a with
  | none => exact ⟨rfl, rfl⟩
  | some x =>
    obtain ⟨htype, hjwt⟩ := h x rfl
    by_cases hk : x.type = "" ∨ x.type = "api_key"
    · have hnone : x.jwt = none := hjwt (by rcases hk with hk | hk <;> rw [hk] <;> decide)
      have hread : authFromInternal (compileAuth (some x)) = none :=
        if_neg fun hn => hk.elim hn.1 hn.2
      rw [hread]
      refine ⟨?_, by simp [compileAuth, hnone]⟩
      rcases hk with hk | hk <;> simp [compileAuth, orDefault, hk]
    · have hread : authFromInternal (compileAuth (some x)) = some x := by
        have := not_or.mp hk
        obtain ⟨type, jwt⟩ := x
        cases jwt <;> simp_all [authFromInternal, compileAuth]
      rw [hread]
      exact ⟨rfl, rfl⟩

theorem orDefault_idem (v d : String) : orDefault (orDefault v d) d = orDefault v d := by
  unfold orDefault
  split_ifs <;> simp_all

theorem extra_again (a : ExtraLimit) : compileExtra (extraFromInternal (compileExtra a)) = compileExtra a := by
  have hkey : orDefault "" Types.perKey = Types.perKey := rfl
  simp only [compileExtra, extraFromInternal, compileSpec, internalAlgo_idem]
  by_cases hp : orDefault a.per Types.perKey = Types.perKey
  · by_cases h : internalAlgo a.algorithm = .tokenBucket <;> simp [h, hp, hkey, ofInt_toNat]
  · by_cases h : internalAlgo a.algorithm = .tokenBucket <;> simp [h, hp, orDefault_idem, ofInt_toNat]

theorem lease_again (l : Option Leasing) :
    let c : LeasePolicy := match l with
      | none => ⟨"", 0, 0, 0⟩
      | some p => ⟨p.mode, p.horizon, p.min, p.max⟩
    (match (if c ≠ ⟨"", 0, 0, 0⟩ then some (⟨c.mode, c.horizon, c.min, c.max⟩ : Leasing) else none) with
      | none => (⟨"", 0, 0, 0⟩ : LeasePolicy)
      | some p => ⟨p.mode, p.horizon, p.min, p.max⟩) = c := by
  intro c
  by_cases hc : c = ⟨"", 0, 0, 0⟩
  · rw [if_neg (not_not.mpr hc), hc]
  · rw [if_pos hc]

theorem breaker_again (s : Service) (p : Types.PrefixConfig) (group : String) :
    compileBreaker (serviceFromInternal group p (compileService s)) = compileBreaker s := by
  have hb : (serviceFromInternal group p (compileService s)).circuitBreaker =
      breakerFromInternal (compileService s) := rfl
  have hu : (serviceFromInternal group p (compileService s)).upstreams = s.upstreams := rfl
  unfold compileBreaker
  have hc : (compileService s).circuitBreaker = compileBreaker s := rfl
  have hl : (compileService s).upstreams.length = s.upstreams.length := rfl
  rw [hb, hu, breakerFromInternal, hc, hl]
  by_cases hn : 1 < s.upstreams.length
  · cases hc : s.circuitBreaker with
    | none => simp [compileBreaker, hc, hn]
    | some cb =>
      by_cases hd : cb.failures = 5 ∧ cb.cooldown = 10 * second
      · simp [compileBreaker, hc, hn, hd.1, hd.2]
      · simp [compileBreaker, hc, hn, hd]
  · cases hc : s.circuitBreaker with
    | none => simp [compileBreaker, hc, hn]
    | some cb => simp [compileBreaker, hc, hn]

theorem safetyTier_again (s : Service) (p : Types.PrefixConfig) (group : String) :
    (compileService (serviceFromInternal group p (compileService s))).safetyTier =
      (compileService s).safetyTier := by
  change (if (compileService s).failure.effectiveHubPolicy.allowOnRateServiceError then
      (compileService s).safetyTier.map fun t => (⟨UInt32.ofNat t.quota⟩ : Fallback) else none).map
      (fun fb => compileTier safetyTierID { requests := fb.allow } .unset) = (compileService s).safetyTier
  have hallow : (compileService s).failure.effectiveHubPolicy.allowOnRateServiceError =
      s.limits.whenHubUnavailable.isSome := rfl
  rw [hallow]
  cases hf : s.limits.whenHubUnavailable with
  | none => simp [compileService, hf]
  | some fb =>
    have hq : (compileTier safetyTierID { requests := fb.allow } .unset).quota = fb.allow.toNat := rfl
    simp [compileService, hf, hq, UInt32.ofNat_toNat]

/-- What is kept of a retry policy. -/
theorem compileUpstreamError_retries (e : Option UpstreamError) (up : Types.UpstreamFailurePolicy) :
    (compileUpstreamError e up).maxRetries = up.maxRetries ∧
      (compileUpstreamError e up).retryBackoff = up.retryBackoff ∧
      (compileUpstreamError e up).attemptTimeout = up.attemptTimeout := by
  cases e <;> exact ⟨rfl, rfl, rfl⟩

theorem sameRetries_iff {a b : Types.FailureConfig} (ha : 0 ≤ a.upstream.maxRetries)
    (hb : 0 ≤ b.upstream.maxRetries) :
    SameRetries a b ↔ a.upstream.maxRetries = b.upstream.maxRetries ∧
      (if a.upstream.retryBackoff ≤ 0 then 50 * millisecond else a.upstream.retryBackoff) =
        (if b.upstream.retryBackoff ≤ 0 then 50 * millisecond else b.upstream.retryBackoff) ∧
      a.upstream.attemptTimeout = b.upstream.attemptTimeout := by
  simp only [SameRetries, Types.FailureConfig.effectiveUpstreamPolicy, if_neg (not_lt.mpr ha),
    if_neg (not_lt.mpr hb)]

theorem retries_again {lib : Library} {s : Service} (hs : s.Sound lib) (p : Types.PrefixConfig) (group : String) :
    SameRetries (compileService (serviceFromInternal group p (compileService s))).failure
      (compileService s).failure ↔ ∀ r, s.retries = some r → RetriesKept r := by
  set up := (compileService s).failure.upstream with hup
  obtain ⟨h₁, h₂, h₃⟩ : up.maxRetries = (compileRetries s.retries).maxRetries ∧
      up.retryBackoff = (compileRetries s.retries).retryBackoff ∧
      up.attemptTimeout = (compileRetries s.retries).attemptTimeout :=
    compileUpstreamError_retries _ _
  obtain ⟨g₁, g₂, g₃⟩ := compileUpstreamError_retries (upstreamErrorFromInternal (compileService s).failure)
    (compileRetries (retriesFromInternal up))
  set up' := compileUpstreamError (upstreamErrorFromInternal (compileService s).failure)
    (compileRetries (retriesFromInternal up)) with hup'
  have hagain : (compileService (serviceFromInternal group p (compileService s))).failure.upstream = up' := rfl
  have hpos : 0 ≤ up.maxRetries := by
    rw [h₁]
    cases hr : s.retries with
    | none => exact le_rfl
    | some r =>
      have := (hs.retries r hr).1
      change 0 ≤ r.attempts - 1
      omega
  -- what is written back is the policy itself when there are retries, and nothing otherwise
  by_cases hmany : 0 < up.maxRetries
  · have hread : retriesFromInternal up = some ⟨up.maxRetries + 1, up.retryOnStatuses, up.retryBackoff,
        up.attemptTimeout, up.retryNonIdempotentMethods⟩ := if_pos hmany
    rw [hread] at g₁ g₂ g₃
    have e₁ : up'.maxRetries = up.maxRetries := g₁.trans (by simp [compileRetries])
    have e₂ : up'.retryBackoff = up.retryBackoff := g₂
    have e₃ : up'.attemptTimeout = up.attemptTimeout := g₃
    rw [sameRetries_iff (by rw [hagain, e₁]; exact hpos) hpos, hagain, e₁, e₂, e₃]
    refine iff_of_true ⟨rfl, rfl, rfl⟩ fun r hr hone => ?_
    rw [h₁, hr] at hmany
    change 0 < r.attempts - 1 at hmany
    omega
  · have hread : retriesFromInternal up = none := if_neg hmany
    rw [hread] at g₁ g₂ g₃
    have e₁ : up'.maxRetries = 0 := g₁
    have e₂ : up'.retryBackoff = 0 := g₂
    have e₃ : up'.attemptTimeout = 0 := g₃
    have hzero : up.maxRetries = 0 := by omega
    rw [sameRetries_iff (by rw [hagain, e₁]) hpos, hagain, e₁, e₂, e₃, ← hup, hzero, h₂, h₃]
    cases hr : s.retries with
    | none => simp [compileRetries, noRetries]
    | some r =>
      have hone : r.attempts = 1 := by
        rw [h₁, hr] at hzero
        change r.attempts - 1 = 0 at hzero
        omega
      simp only [compileRetries, le_refl, if_true, Option.some.injEq, forall_eq', RetriesKept, hone,
        true_and, true_implies]
      constructor
      · rintro ⟨hb, ht⟩
        refine ⟨ht.symm, ?_⟩
        split_ifs at hb with hle
        · exact .inl hle
        · exact .inr hb.symm
      · rintro ⟨ht, hb⟩
        refine ⟨?_, ht.symm⟩
        rcases hb with hb | hb
        · rw [if_pos hb]
        · rw [hb]
          split_ifs <;> rfl

theorem SameTier.refl (t : Types.TierConfig) : SameTier t t := ⟨rfl, fun _ => rfl⟩

theorem option_rel_refl {α : Type} {R : α → α → Prop} (h : ∀ a, R a a) (o : Option α) : Option.Rel R o o := by
  cases o with
  | none => exact .none
  | some a => exact .some (h a)

/-- The tiers keep their prices. -/
theorem sameTiers_again {lib : Library} {s : Service} (hs : s.Sound lib) (p : Types.PrefixConfig) (group : String) :
    List.Forall₂ SameTier (compileService (serviceFromInternal group p (compileService s))).tiers
      (compileService s).tiers ↔ ∀ name t, s.limits.tiers.lookup name = some t → CostsKept t := by
  rw [tiers_again, List.forall₂_map_left_iff, List.forall₂_same]
  have htiers : (compileService s).tiers = (sortedTierNames s.limits.tiers).map fun name =>
    compileTier name ((s.limits.tiers.lookup name).getD {}) s.limits.algorithm := rfl
  rw [htiers, List.forall_mem_map]
  constructor
  · intro h name t ht
    have hmem : name ∈ sortedTierNames s.limits.tiers := by
      rw [mem_sortedTierNames, ← AList.lookup_isSome, ht]
      rfl
    have := h name hmem
    rw [ht, Option.getD_some] at this
    exact (sameTier_again (hs.limits.tiers name t ht) _).mp this
  · intro h name hmem
    obtain ⟨t, ht⟩ := Option.isSome_iff_exists.mp (AList.lookup_isSome.mpr (mem_sortedTierNames.mp hmem))
    rw [ht, Option.getD_some]
    exact (sameTier_again (hs.limits.tiers name t ht) _).mpr (h name t ht)

/-- A service comes back the same just when its prices and its single attempts do. -/
theorem sameService_again {lib : Library} {s : Service} (hs : s.Sound lib) (p : Types.PrefixConfig) (group : String) :
    SameService (compileService (serviceFromInternal group p (compileService s))) (compileService s) ↔
      (∀ name t, s.limits.tiers.lookup name = some t → CostsKept t) ∧
        ∀ r, s.retries = some r → RetriesKept r := by
  rw [← sameTiers_again hs p group, ← retries_again hs p group]
  refine ⟨fun h => ⟨h.tiers, h.retries⟩, fun ⟨htiers, hretries⟩ => ?_⟩
  exact {
    auth := auth_again hs.auth
    tiers := htiers
    lease := lease_again s.limits.leasing
    limits := by
      change ((s.limits.also.map compileExtra).map extraFromInternal).map compileExtra = _
      rw [List.map_map, List.map_map]
      exact List.map_congr_left fun a _ => extra_again a
    org := by
      change ((s.limits.org.map _).map _).map _ = s.limits.org.map _
      cases s.limits.org with
      | none => rfl
      | some o => simp [ofInt_toNat]
    global := by
      change ((s.limits.global.map _).map _).map _ = s.limits.global.map _
      cases s.limits.global <;> rfl
    cost := by
      change ((s.limits.cost.map _).map _).map _ = s.limits.cost.map _
      cases s.limits.cost <;> rfl
    safetyTier := by
      rw [safetyTier_again]
      exact option_rel_refl SameTier.refl _
    shadow := by
      change decide ((if decide (s.limits.mode = "shadow") then "shadow" else "") = "shadow") =
        decide (s.limits.mode = "shadow")
      by_cases hm : s.limits.mode = "shadow" <;> simp [hm]
    maxConcurrent := rfl
    targets := by
      change (if s.upstreams ≠ [] then s.upstreams else [s.upstreams.headD _]) =
        (if s.upstreams ≠ [] then s.upstreams else [s.upstreams.headD s.upstream])
      by_cases hu : s.upstreams = []
      · simp [serviceFromInternal, compileService, hu]
      · rw [if_pos hu, if_pos hu]
    retries := hretries
    breaker := breaker_again s p group }

/-! ### Prefixes -/

/-- The prefix a prefix comes back as. -/
def prefixAgain (p : Types.PrefixConfig) : Types.PrefixConfig where
  name := p.name
  quotaPeriod := p.quotaPeriod
  leasing := ⟨p.leasing.leaseQuantum, 0, 0, 0⟩
  services := p.services.map fun svc => compileService (serviceFromInternal p.name p svc)

/-- More services of the last group. -/
theorem foldl_addService_last {acc : List Types.PrefixConfig} {q : Types.PrefixConfig} {ss : List Service}
    (hacc : ∀ p ∈ acc, p.name ≠ q.name) (hss : ∀ s ∈ ss, s.group = q.name) :
    ss.foldl addService (acc ++ [q]) = acc ++ [{ q with services := q.services ++ ss.map compileService }] := by
  induction ss generalizing q with
  | nil => simp
  | cons s ss ih =>
    have hs : s.group = q.name := hss s (List.mem_cons_self ..)
    have hmap : acc.map (fun p => if p.name = q.name
        then { p with services := p.services ++ [compileService s] } else p) = acc := by
      conv_rhs => rw [← List.map_id acc]
      exact List.map_congr_left fun p hp => if_neg (hacc p hp)
    have hstep : addService (acc ++ [q]) s =
        acc ++ [{ q with services := q.services ++ [compileService s] }] := by
      unfold addService
      rw [if_pos (by simp [hs]), List.map_append, hs, hmap]
      simp
    have hrest := ih (q := { q with services := q.services ++ [compileService s] }) hacc
      (fun t ht => hss t (List.mem_cons_of_mem _ ht))
    rw [List.foldl_cons, hstep, hrest]
    simp

/-- The services of one prefix come back as one prefix. -/
theorem foldl_addService_prefix {acc : List Types.PrefixConfig} {p : Types.PrefixConfig}
    (hne : p.services ≠ []) (hacc : ∀ q ∈ acc, q.name ≠ p.name)
    (hgroup : ∀ svc ∈ p.services, (serviceFromInternal p.name p svc).group = p.name) :
    (p.services.map (serviceFromInternal p.name p)).foldl addService acc = acc ++ [prefixAgain p] := by
  obtain ⟨svc, rest, hs⟩ := List.exists_cons_of_ne_nil hne
  rw [hs] at hgroup
  have hg : (serviceFromInternal p.name p svc).group = p.name := hgroup svc (List.mem_cons_self ..)
  have hfirst : addService acc (serviceFromInternal p.name p svc) = acc ++ [{
      name := p.name
      quotaPeriod := p.quotaPeriod
      leasing := ⟨p.leasing.leaseQuantum, 0, 0, 0⟩
      services := [compileService (serviceFromInternal p.name p svc)] }] := by
    unfold addService
    rw [if_neg (by simpa [hg] using hacc), hg]
    rfl
  have hrest := foldl_addService_last (q := ⟨p.name, p.quotaPeriod, ⟨p.leasing.leaseQuantum, 0, 0, 0⟩,
      [compileService (serviceFromInternal p.name p svc)]⟩) hacc
    (List.forall_mem_map.mpr fun v hv => hgroup v (List.mem_cons_of_mem _ hv) :
      ∀ t ∈ rest.map (serviceFromInternal p.name p), _)
  rw [hs, List.map_cons, List.foldl_cons, hfirst, hrest]
  simp [prefixAgain, hs]

theorem foldl_addService_prefixes {acc ps : List Types.PrefixConfig} (hnodup : (ps.map (·.name)).Nodup)
    (hacc : ∀ q ∈ acc, ∀ p ∈ ps, q.name ≠ p.name) (hne : ∀ p ∈ ps, p.services ≠ [])
    (hgroup : ∀ p ∈ ps, ∀ svc ∈ p.services, (serviceFromInternal p.name p svc).group = p.name) :
    (ps.flatMap fun p => p.services.map (serviceFromInternal p.name p)).foldl addService acc =
      acc ++ ps.map prefixAgain := by
  induction ps generalizing acc with
  | nil => simp
  | cons p ps ih =>
    obtain ⟨hp, hnodup⟩ := List.nodup_cons.mp hnodup
    rw [List.flatMap_cons, List.foldl_append, foldl_addService_prefix (hne p (List.mem_cons_self ..))
      (fun q hq => hacc q hq p (List.mem_cons_self ..)) (hgroup p (List.mem_cons_self ..)),
      ih hnodup ?_ (fun q hq => hne q (List.mem_cons_of_mem _ hq))
        (fun q hq => hgroup q (List.mem_cons_of_mem _ hq))]
    · simp
    · intro q hq r hr
      rcases List.mem_append.mp hq with hq | hq
      · exact hacc q hq r (List.mem_cons_of_mem _ hr)
      · rw [List.mem_singleton.mp hq]
        exact fun he => hp (List.mem_map.mpr ⟨r, hr, he.symm⟩)

theorem group_again {lib : Library} {s : Service} (hs : s.Sound lib) (p : Types.PrefixConfig) {g : String}
    (hg : g = s.group) : (serviceFromInternal g p (compileService s)).group = g := by
  obtain ⟨hne, hchars⟩ := hs.group
  obtain ⟨hnne, hnchars⟩ := nameRe_chars hs.name
  have hseg : (serviceFromInternal g p (compileService s)).segments = [g, s.name] := by
    rw [Service.segments]
    exact split_path (hg ▸ hne) hnne (fun h => (hchars _ (hg ▸ h)).plain.2.1 rfl)
      (fun h => (hnchars _ h).plain.2.1 rfl)
  rw [Service.group, hseg]
  rfl

theorem prefixes_again {lib : Library} {f : File} (hf : f.Sound lib) :
    (roundTrip f).prefixes = (compile f).prefixes.map prefixAgain := by
  have hgr := grouped_compile f
  have htrim : ∀ p ∈ (compile f).prefixes, trimSlashes p.name = p.name := by
    intro p hp
    obtain ⟨s, hs, rfl⟩ := hgr.made p hp
    exact trimSlashes_of_plain fun h => ((hf.services s hs).group.2 _ h).plain.2.1 rfl
  have hservices : (fromInternal (compile f)).services =
      (compile f).prefixes.flatMap fun p => p.services.map (serviceFromInternal p.name p) := by
    unfold fromInternal
    exact List.flatMap_congr fun p hp => by rw [htrim p hp]
  change (fromInternal (compile f)).services.foldl addService [] = _
  rw [hservices, foldl_addService_prefixes hgr.distinct (by simp)]
  · simp
  · intro p hp
    obtain ⟨s, hs, rfl⟩ := hgr.made p hp
    exact List.ne_nil_of_mem (mem_prefixOf.mpr ⟨s, hs, rfl, rfl⟩)
  · intro p hp svc hsvc
    obtain ⟨s, hs, rfl⟩ := hgr.made p hp
    obtain ⟨t, ht, hg, rfl⟩ := mem_prefixOf.mp hsvc
    exact group_again (hf.services t ht) _ hg.symm

theorem findService_again {lib : Library} {f : File} (hf : f.Sound lib) (name service : String) :
    (roundTrip f).findService name service = ((compile f).findService name service).map fun r =>
      (prefixAgain r.1, compileService (serviceFromInternal r.1.name r.1 r.2)) := by
  have hp : (roundTrip f).findPrefix name = ((compile f).findPrefix name).map prefixAgain := by
    unfold Types.GatewayConfig.findPrefix
    rw [prefixes_again hf]
    split_ifs
    · rfl
    · exact List.find?_map
  unfold Types.GatewayConfig.findService
  rw [hp]
  cases (compile f).findPrefix name with
  | none => rfl
  | some p =>
    have hs : ((prefixAgain p).services.find? fun s => s.serviceID = trimSpace service) =
        (p.services.find? fun s => s.serviceID = trimSpace service).map fun svc =>
          compileService (serviceFromInternal p.name p svc) := List.find?_map
    simp only [Option.map_some, Option.bind_eq_bind, Option.bind_some, hs]
    cases p.services.find? fun s => s.serviceID = trimSpace service <;> rfl

theorem descriptors_again (f : File) : (roundTrip f).descriptors = (compile f).descriptors := by
  change ((f.descriptors.map _).map _).map _ = f.descriptors.map _
  rw [List.map_map, List.map_map]
  refine List.map_congr_left fun d _ => ?_
  simp only [Function.comp_apply, compileEntries_fromInternal]

theorem runtime_again (f : File) : (roundTrip f).runtime = (compile f).runtime := compileRuntime_again f.runtime

/-- A file comes back as the same config just when no method priced at 1 is undercut by the
price of the others, and no single attempt has a timeout or a backoff of its own. -/
theorem roundTrip_same_iff {lib : Library} {f : File} (h : Accepted lib f) :
    SameConfig (roundTrip f) (compile f) ↔ ∀ s ∈ f.services,
      (∀ name t, s.limits.tiers.lookup name = some t → CostsKept t) ∧
        ∀ r, s.retries = some r → RetriesKept r := by
  have hf := h.sound
  constructor
  · intro hsame s hs
    obtain ⟨p, hp⟩ := findService_of_mem hf hs
    have hrel := hsame.services s.group s.name
    rw [findService_again hf, hp, Option.map_some] at hrel
    cases hrel with
    | some hroute => exact (sameService_again (hf.services s hs) p p.name).mp hroute.2.2
  · intro hkept
    refine ⟨fun name service => ?_, descriptors_again f, runtime_again f⟩
    rw [findService_again hf]
    cases hfind : (compile f).findService name service with
    | none => exact .none
    | some r =>
      obtain ⟨p, svc⟩ := r
      obtain ⟨s, hs, t, -, -, rfl, rfl, -, -⟩ := findService_compile hfind
      exact .some ⟨rfl, rfl, (sameService_again (hf.services s hs) _ _).mpr (hkept s hs)⟩

/-- Reads cost 1, everything else 5. -/
def cheapReads : File :=
  ordersFile { requests := 100, cost := (AList.singleton "*" 5).insert "GET" 1 }

/-- What each tier of a service charges for a method. -/
def prices (cfg : Types.GatewayConfig) (name service method : String) : Option (List ℤ) :=
  (cfg.findService name service).map fun r => r.2.tiers.map (Edge.methodCost method)

theorem SameConfig.prices {a b : Types.GatewayConfig} (h : SameConfig a b) (name service method : String) :
    prices a name service method = prices b name service method := by
  have hrel := h.services name service
  unfold Config.prices
  generalize a.findService name service = x at hrel ⊢
  generalize b.findService name service = y at hrel ⊢
  cases hrel with
  | some hroute =>
    have hmap : List.Forall₂ Eq _ _ := List.forall₂_map_left_iff.mpr
      (List.forall₂_map_right_iff.mpr (hroute.2.2.tiers.imp fun _ _ ht => ht.cost method))
    rw [List.forall₂_eq_eq_eq] at hmap
    rw [Option.map_some, Option.map_some, hmap]
  | none => rfl

/-- A price of 1 is lost: reads come back at the price of everything else. -/
theorem cheap_reads_come_back_dear :
    Accepted plainLibrary cheapReads ∧ prices (compile cheapReads) "v1" "orders" "GET" = some [1] ∧
      prices (roundTrip cheapReads) "v1" "orders" "GET" = some [5] ∧
      ¬ SameConfig (roundTrip cheapReads) (compile cheapReads) := by
  have hbefore : prices (compile cheapReads) "v1" "orders" "GET" = some [1] := by decide +kernel
  have hafter : prices (roundTrip cheapReads) "v1" "orders" "GET" = some [5] := by decide +kernel
  refine ⟨by decide +kernel, hbefore, hafter, fun h => ?_⟩
  have := h.prices "v1" "orders" "GET"
  rw [hbefore, hafter] at this
  exact absurd this (by decide)

/-- A file with dear writes and retries comes back the same. -/
theorem roundTrip_same_dear_writes :
    let f : File := { services := [{ ordersService { requests := 100, cost := AList.singleton "POST" 5 } with
      retries := some ⟨3, [502, 503], 100 * millisecond, second, false⟩ }] }
    Accepted plainLibrary f ∧ SameConfig (roundTrip f) (compile f) := by
  intro f
  have hacc : Accepted plainLibrary f := by decide +kernel
  refine ⟨hacc, (roundTrip_same_iff hacc).mpr fun s hs => ?_⟩
  obtain rfl := List.mem_singleton.mp hs
  refine ⟨fun name t ht => ?_, fun r hr => ?_⟩
  · have := AList.mem_lookup_iff.mp ht
    obtain rfl : t = { requests := 100, cost := AList.singleton "POST" 5 } := by
      exact eq_of_heq (Sigma.mk.inj (List.mem_singleton.mp this)).2
    unfold CostsKept
    decide
  · obtain rfl := Option.some.inj hr
    exact fun hone => absurd hone (by decide)

end Gate.Config
