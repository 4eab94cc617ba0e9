import Gate.Sanity.Quota
import Gate.Sanity.Regions
import Gate.Sanity.Resolve

/-! The ledger never refuses a lease the hub resolved from a config that passed the checks. -/

namespace Gate

/-- An item that the ledger can grant from. -/
structure Item.Grounded (it : Item) : Prop where
  spec : it.spec.validate = .ok ()
  regional : it.args.regional = true →
    it.spec.algo.or = .fixedWindow ∧ 0 ≤ it.args.allocBase ∧ it.args.allocBase ≤ it.spec.limit
  parent : ∀ p, it.args.parent = some p → p.algo.or = .fixedWindow ∧ 0 < p.limit
  nested : it.ref.parent ≠ "" → it.args.parent.isSome

theorem Item.Grounded.prepare {it : Item} (h : it.Grounded) : ∃ inp, prepare it.ref it.spec it.args = .ok inp := by
  have hreg : ¬ (it.args.regional = true ∧ (it.spec.algo.or ≠ .fixedWindow ∨ it.args.allocBase < 0)) := by
    rintro ⟨hr, hne | hlt⟩
    · exact hne (h.regional hr).1
    · exact absurd (h.regional hr).2.1 (not_le.mpr hlt)
  unfold Gate.prepare
  simp only [h.spec, bind, Except.bind, if_neg hreg, pure, Except.pure]
  split
  · rename_i p hp
    split_ifs with h₁ h₂
    · exact ⟨_, rfl⟩
    · obtain ⟨ha, hl⟩ := h.parent p hp
      rcases h₂ with h₂ | h₂
      · omega
      · exact absurd ha h₂
    · exact ⟨_, rfl⟩
  · exact ⟨_, rfl⟩

theorem leaseArgs_plain (p : LeasePolicy) : (leaseArgs p).regional = false ∧ (leaseArgs p).parent = none := by
  unfold leaseArgs
  split_ifs <;> exact ⟨rfl, rfl⟩

/-- A quota with no region and no budget around it. -/
theorem Item.Grounded.plain {ref : Ref} {spec : Spec} {args : GrantArgs} (hs : spec.validate = .ok ())
    (ha : args.regional = false ∧ args.parent = none) (hr : ref.parent = "") : Item.Grounded ⟨ref, spec, args⟩ where
  spec := hs
  regional h := by rw [ha.1] at h; cases h
  parent p h := by rw [ha.2] at h; cases h
  nested h := absurd hr h

theorem windowMs_ge (s : Spec) : 1000 ≤ windowMs s := by
  have hm : (1000 * millisecond : ℤ) ≤ max s.window second := le_max_of_le_right (by decide)
  rw [windowMs, milliseconds, Int.tdiv_eq_ediv_of_nonneg (le_trans (by decide) hm)]
  exact (Int.le_ediv_iff_mul_le (by decide)).mpr hm

namespace Config

section
variable {lib : Library} {s : Service}

/-- Under a global quota every tier counts in fixed windows. -/
theorem findTier_fixed (hs : s.Sound lib) {g : Global} (hg : s.limits.global = some g) {tier : String}
    {t : TierConfig} (h : findTier (compileService s).limiting tier = some t) : t.algorithm.or = .fixedWindow := by
  obtain ⟨-, ⟨u, hu, rfl⟩ | ⟨fb, -, -, rfl⟩⟩ := findTier_compile h
  · change (internalAlgo (orAlgo u.algorithm s.limits.algorithm)).or = _
    rw [internalAlgo_or]
    rcases (hs.limits.global g hg).fixed _ u hu with h | h <;> rw [h] <;> rfl
  · rfl

theorem compile_global {g : Gate.GlobalLimit} (hg : (compileService s).limiting.global = some g) :
    ∃ g', s.limits.global = some g' ∧ g.floors = g'.floors.entries.map fun e => (e.1, e.2) := by
  obtain ⟨x, hx, rfl⟩ := Option.map_eq_some_iff.mp hg
  obtain ⟨g', hg', rfl⟩ := Option.map_eq_some_iff.mp hx
  exact ⟨g', hg', rfl⟩

/-- A tier's quota, whole or a region's part of it. -/
theorem withRegion_grounded (hs : s.Sound lib) (env : HubEnv) {ref : Ref} (hr : ref.parent = "") (subject : String)
    {tier : String} {t : TierConfig} (ht : findTier (compileService s).limiting tier = some t) (window : ℤ) :
    (withRegion env (compileService s).limiting subject
      ⟨ref, ⟨t.algorithm, t.quota, window, t.rate⟩, leaseArgs (compileService s).limiting.lease⟩).Grounded := by
  have hplain := leaseArgs_plain (compileService s).limiting.lease
  have hspec := (findTier_grounded hs ht).validate window
  rcases withRegion_cases env (compileService s).limiting subject
    ⟨ref, ⟨t.algorithm, t.quota, window, t.rate⟩, leaseArgs (compileService s).limiting.lease⟩ with
    h | ⟨g, name, hg, -, h⟩
  · rw [h]
    exact .plain hspec hplain hr
  rw [h]
  obtain ⟨g', hg', hfloors⟩ := compile_global hg
  have hsound := hs.limits.global g' hg'
  refine ⟨hspec, fun _ => ⟨findTier_fixed hs hg' ht, ?_⟩, ?_, fun hn => absurd hr hn⟩
  · have hkeys : (g.floors.map Prod.fst).Nodup := by
      rw [hfloors, List.map_map]
      exact g'.floors.keys_nodup
    refine regionBase_bounds env.score name subject (Int.natCast_nonneg _) hkeys ?_ ?_
    · intro e he
      rw [hfloors] at he
      obtain ⟨x, hx, rfl⟩ := List.mem_map.mp he
      exact (hsound.floors x hx).1
    · rw [hfloors, List.map_map]
      exact hsound.sum
  · intro p hp
    rw [hplain.2] at hp
    cases hp

/-- The org's budget is a fixed window of its own. -/
theorem withOrg_grounded (hs : s.Sound lib) (env : HubEnv) (p : PrefixConfig) (org : String) {it : Item}
    (hi : it.Grounded) : (withOrg env p (compileService s).limiting org it).Grounded := by
  rcases withOrg_cases env p (compileService s).limiting org it with h | ⟨o, ho, -, h⟩
  · rw [h]
    exact hi
  rw [h]
  obtain ⟨x, hx, rfl⟩ := Option.map_eq_some_iff.mp ho
  obtain ⟨c, hc, rfl⟩ := Option.map_eq_some_iff.mp hx
  refine ⟨hi.spec, hi.regional, ?_, fun _ => rfl⟩
  rintro q ⟨⟩
  exact ⟨rfl, Int.natCast_pos.mpr (toNat_pos (hs.limits.org c hc).1)⟩

end

section
variable {lib : Library} {f : File}

theorem resolved_grounded (hf : f.Sound lib) {env : HubEnv} {scope service subject limitID tierID org : String}
    {it : Item} (h : Resolved env (compile f).limiting scope service subject limitID tierID org it) :
    it.Grounded := by
  cases h with
  | descriptor hs hl => exact .plain ((find_compile hf hl).1.validate _) ⟨rfl, rfl⟩ rfl
  | named hs hp hn hl =>
    obtain ⟨s, hs, rfl, -⟩ := hub_findService hf hp
    obtain ⟨a, -, rfl, -, ha⟩ := findLimit_compile (hf.services s hs) hl
    exact .plain ((compileExtra_grounded ha).validate _) (leaseArgs_plain _) rfl
  | tier hs hp hn hc ht =>
    obtain ⟨s, hs, rfl, -⟩ := hub_findService hf hp
    have hsound := hf.services s hs
    exact withOrg_grounded hsound _ _ _ (withRegion_grounded hsound _ rfl _ ht _)

/-- What a grant of the item starts from. -/
structure Ready (it : Item) (inp : GrantInput) : Prop where
  prepared : prepare it.ref it.spec it.args = .ok inp
  limit : 0 < inp.limit
  target : 0 < inp.target
  window : 1000 ≤ inp.win
  regional : it.args.regional = true → 0 ≤ inp.allocBase ∧ inp.allocBase ≤ inp.limit
  parent : ∀ p, it.args.parent = some p → p.algo.or = .fixedWindow ∧ 0 < p.limit
  org : it.ref.parent ≠ "" → ∃ p, it.args.parent = some p ∧
    inp.parentKey = it.ref.parentKey .fixedWindow ∧ inp.plimit = p.limit ∧ inp.pwin = windowMs p

/-- A request adds its own numbers to what it resolves to, which no check of the ledger reads. -/
theorem resolveLease_grounded (hf : f.Sound lib) {env : HubEnv} {cn : String} {r : QuotaLeaseRequest} {it : Item}
    (hr : resolveLease env (compile f).limiting cn r = .ok it) : it.Grounded := by
  rw [resolveLease] at hr
  split at hr
  · cases hr
  cases hres : resolve env (compile f).limiting r.scope r.serviceId r.apiKey r.limitId r.tierId r.org with
  | error code =>
    rw [hres] at hr
    cases hr
  | ok base =>
    rw [hres] at hr
    cases hr
    have hg := resolved_grounded hf (resolve_ok_iff.mp hres).2
    exact ⟨hg.spec, hg.regional, hg.parent, hg.nested⟩

/-- Whatever lease the hub resolves, in any region, the ledger accepts. -/
theorem resolved_ready {env : HubEnv} {cn : String} {r : QuotaLeaseRequest} {it : Item} (h : Accepted lib f)
    (hr : resolveLease env (compile f).limiting cn r = .ok it) : ∃ inp, Ready it inp := by
  have hg := resolveLease_grounded h.sound hr
  obtain ⟨inp, hinp⟩ := hg.prepare
  have hp := prepare_prepared hinp
  refine ⟨inp, hinp, ?_, hp.target, hp.win ▸ windowMs_ge _, fun hreg => ?_, hg.parent, fun hn => ?_⟩
  · rw [hp.limit]
    exact (Spec.validate_ok.mp hg.spec).2.1
  · have hb : inp.allocBase = it.args.allocBase := by
      rw [hp.allocBase, if_pos hreg]
    rw [hb, hp.limit]
    exact (hg.regional hreg).2
  · obtain ⟨p, hpar⟩ := Option.isSome_iff_exists.mp (hg.nested hn)
    exact ⟨p, hpar, hp.nested p hpar hn⟩

/-- A hub that knows one free key. -/
def oneKeyHub : HubEnv where
  matchPattern _ _ := true
  tier _ _ := some "free"
  owner _ _ := none
  orgID o := o
  score _ _ := 0
  region := none

def freeRequest : QuotaLeaseRequest := ⟨"v1", "orders", "k", "", "", "", 10, "edge", 0⟩

theorem free_request_ready :
    Accepted plainLibrary (ordersFile { requests := 100 }) ∧
      ∃ it, resolveLease oneKeyHub (compile (ordersFile { requests := 100 })).limiting "" freeRequest = .ok it ∧
        ∃ inp, Ready it inp := by
  have hacc : Accepted plainLibrary (ordersFile { requests := 100 }) := by decide +kernel
  have hok : (resolveLease oneKeyHub (compile (ordersFile { requests := 100 })).limiting "" freeRequest).isOk := by
    decide +kernel
  cases hr : resolveLease oneKeyHub (compile (ordersFile { requests := 100 })).limiting "" freeRequest with
  | error code =>
    rw [hr] at hok
    cases hok
  | ok it => exact ⟨hacc, it, rfl, resolved_ready hacc hr⟩

end

end Config

end Gate
