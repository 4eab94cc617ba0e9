import Gate.Sanity.Ledger
import Gate.Spec.Tokens

/-! What the hub does to one quota's counters, for requests and returns that draw on the
quota or on something apart from it. -/

namespace Gate

namespace Quota

variable {q : Quota}

/-- A return of the quota's own tokens. -/
def Mine (q : Quota) (r : Ret) : Prop := r.ref = q.ref ∧ r.spec = q.spec ∧ r.parent = none ∧ 0 ≤ r.tokens

/-- A return to other quotas. -/
def Other (q : Quota) (r : Ret) : Prop :=
  r.ref.key r.spec.algo ≠ q.key ∧ r.ref.parentKey .fixedWindow ≠ q.key

theorem key_ne_empty (q : Quota) : q.key ≠ "" := by
  exact snoc_colon_ne_empty _ _

/-- What a list of returns does to the quota: it credits nothing, or the first of the quota's
own items, and then the dedupe ID is used up. -/
structure Credited (q : Quota) (m : Mem) (dedupe : String) (rs : List Ret) (m' : Mem) : Prop where
  deduped : ∀ k, m.deduped k = true → m'.deduped k = true
  nonneg : ∀ v, 0 ≤ m'.used q.key v
  le : ∀ v, m'.used q.key v ≤ m.used q.key v
  credit : (∀ v, m'.used q.key v = m.used q.key v) ∨
    (m.deduped (retKey q.key dedupe) = false ∧ m'.deduped (retKey q.key dedupe) = true ∧
      ∃ r ∈ rs, q.Mine r ∧ ∀ v, m.used q.key v ≤ m'.used q.key v + if v = r.windowID then r.tokens else 0)

theorem Credited.none {m : Mem} {dedupe : String} {rs : List Ret} (hu : ∀ v, 0 ≤ m.used q.key v) :
    q.Credited m dedupe rs m :=
  ⟨fun _ h => h, hu, fun _ => le_rfl, .inl fun _ => rfl⟩

theorem Credited.cons {m m₁ m' : Mem} {dedupe : String} {r : Ret} {rs : List Ret}
    (hd : ∀ k, m.deduped k = true → m₁.deduped k = true) (hu : ∀ v, m₁.used q.key v = m.used q.key v)
    (h : q.Credited m₁ dedupe rs m') : q.Credited m dedupe (r :: rs) m' := by
  refine ⟨fun k hk => h.deduped k (hd k hk), h.nonneg, fun v => hu v ▸ h.le v, ?_⟩
  rcases h.credit with hc | ⟨h₁, h₂, x, hx, hm, hc⟩
  · exact .inl fun v => (hc v).trans (hu v)
  · refine .inr ⟨?_, h₂, x, List.mem_cons_of_mem _ hx, hm, fun v => hu v ▸ hc v⟩
    cases hk : m.deduped (retKey q.key dedupe) with
    | false => rfl
    | true => rw [hd _ hk] at h₁; cases h₁

end Quota

theorem deduped_returnOne (m : Mem) (now : ℤ) (inp : ReturnInput) (k : String) (h : m.deduped k = true) :
    (m.returnOne now inp).deduped k = true := by
  unfold Mem.returnOne
  split
  · split
    · exact h
    · rw [deduped_applyReturn, Mem.deduped_mark, h, Bool.or_true]
  · rw [deduped_applyReturn]
    exact h

/-- A repeat of a return is dropped. -/
theorem returnOne_repeat {m : Mem} {now : ℤ} {inp : ReturnInput} (h0 : inp.dedupeKey ≠ "")
    (h : m.deduped inp.dedupeKey = true) : m.returnOne now inp = m := by
  simp [Mem.returnOne, h0, h]

theorem returnOne_first {m : Mem} {now : ℤ} {inp : ReturnInput} (h0 : inp.dedupeKey ≠ "")
    (h : m.deduped inp.dedupeKey = false) :
    m.returnOne now inp = (m.mark inp.dedupeKey).applyReturn now inp := by
  simp [Mem.returnOne, h0, h]

theorem used_returnOne_other {q : Quota} {m : Mem} {now : ℤ} {r : Ret} {dedupe : String}
    {inp : ReturnInput} (hp : PreparedReturn r dedupe inp) (ho : q.Other r) (v : ℤ) :
    (m.returnOne now inp).used q.key v = m.used q.key v := by
  have hk : inp.key ≠ q.key := hp.key ▸ ho.1
  have hb : inp.algo = .tokenBucket → ∀ w, inp.key ≠ winKey q.key w := fun ha w => by
    rw [hp.key]
    exact bucketKey_ne_winKey (hp.algo ▸ ha) _ _
  have hpk : inp.parentKey ≠ q.key := by
    rcases hp.parentKey with h | h
    · rw [h]; exact q.key_ne_empty.symm
    · rw [h]; exact ho.2
  unfold Mem.returnOne
  split
  · split
    · rfl
    · exact applyReturn_apart _ now hk hb hpk v
  · exact applyReturn_apart _ now hk hb hpk v

/-- The first item of the quota's own to arrive under a dedupe ID credits what it returns. -/
theorem returnOne_mine {q : Quota} (hw : q.Windowed) {m : Mem} (now : ℤ) {r : Ret} {dedupe : String}
    {inp : ReturnInput} (hp : PreparedReturn r dedupe inp) (hm : q.Mine r) (hd : dedupe ≠ "")
    (h : m.deduped (retKey q.key dedupe) = false) (hu : ∀ v, 0 ≤ m.used q.key v) :
    (m.returnOne now inp).deduped (retKey q.key dedupe) = true ∧
      ∀ v, 0 ≤ (m.returnOne now inp).used q.key v ∧ (m.returnOne now inp).used q.key v ≤ m.used q.key v ∧
        m.used q.key v ≤ (m.returnOne now inp).used q.key v + if v = r.windowID then r.tokens else 0 := by
  obtain ⟨href, hspec, hpar, htok⟩ := hm
  have hkey : inp.key = q.key := by rw [hp.key, href, hspec]; rfl
  have hdk : inp.dedupeKey = retKey q.key dedupe := by rw [hp.dedupeKey, if_pos hd, href, hspec]; rfl
  have halgo : inp.algo ≠ .tokenBucket := by rw [hp.algo, hspec]; exact hw.1
  have h0 : inp.dedupeKey ≠ "" := hdk ▸ retKey_ne_empty _ _
  rw [returnOne_first h0 (hdk ▸ h), hdk]
  refine ⟨by rw [deduped_applyReturn, Mem.deduped_mark]; simp, fun v => ?_⟩
  have hv := hu v
  have hr := hu r.windowID
  rw [applyReturn_alone _ _ _ halgo (hp.alone hpar), hkey, hp.wid, hp.tokens]
  split
  · rw [used_credit, Mem.used_mark, Mem.used_mark]
    split
    · rename_i hv'
      subst hv'
      omega
    · omega
  · rw [Mem.used_mark]
    split <;> omega

theorem ret_credited {q : Quota} (hw : q.Windowed) {dedupe : String} (hd : dedupe ≠ "") (now : ℤ)
    (rs : List Ret) (hrs : ∀ r ∈ rs, q.Mine r ∨ q.Other r) (m : Mem) (hu : ∀ v, 0 ≤ m.used q.key v) :
    q.Credited m dedupe rs (m.ret now dedupe rs).2 := by
  induction rs generalizing m with
  | nil => exact .none hu
  | cons r rs ih =>
    have ih' := ih fun x hx => hrs x (List.mem_cons_of_mem _ hx)
    unfold Mem.ret
    cases hprep : prepareReturn r dedupe with
    | error e => exact .none hu
    | ok inp =>
      have hp := prepareReturn_prepared hprep
      dsimp only
      rcases hrs r List.mem_cons_self with hm | ho
      · cases hk : m.deduped (retKey q.key dedupe) with
        | true =>
          have hdk : inp.dedupeKey = retKey q.key dedupe := by
            rw [hp.dedupeKey, if_pos hd, hm.1, hm.2.1]
            rfl
          rw [returnOne_repeat (hdk ▸ retKey_ne_empty _ _) (hdk ▸ hk)]
          exact .cons (fun _ h => h) (fun _ => rfl) (ih' m hu)
        | false =>
          -- the item is credited; whatever follows finds the dedupe ID used
          obtain ⟨h₁, h₂⟩ := returnOne_mine hw now hp hm hd hk hu
          have hc := ih' (m.returnOne now inp) fun v => (h₂ v).1
          have hsame : ∀ v, _ = (m.returnOne now inp).used q.key v :=
            hc.credit.resolve_right fun h => by rw [h₁] at h; cases h.1
          refine ⟨fun k h => hc.deduped k (deduped_returnOne m now inp k h), hc.nonneg,
            fun v => (hc.le v).trans (h₂ v).2.1, .inr ⟨hk, hc.deduped _ h₁, r, List.mem_cons_self, hm, ?_⟩⟩
          intro v
          rw [hsame v]
          exact (h₂ v).2.2
      · refine .cons (deduped_returnOne m now inp) (used_returnOne_other hp ho) (ih' _ fun v => ?_)
        rw [used_returnOne_other hp ho]
        exact hu v

/-! Lease requests. -/

/-- An answer a goroutine can rely on: it takes nothing away, and names its window. -/
def Quota.Sound (q : Quota) (r : QuotaLeaseRequest) (resp : QuotaLeaseResponse) : Prop :=
  0 ≤ resp.grantedTokens ∧ (r.stateKey = q.stateKey → 0 < resp.expiresInMs)

theorem milliseconds_mul (n : ℤ) : milliseconds (n * millisecond) = n :=
  Int.mul_tdiv_cancel n (by decide)

/-- What serving a lease request does to the quota. -/
structure Served (q : Quota) (m : Mem) (r : QuotaLeaseRequest) (body : Except Code QuotaLeaseResponse)
    (m' : Mem) : Prop where
  deduped : m'.deduped = m.deduped
  used : ∀ v, m'.used q.key v = m.used q.key v + q.grantedIn v r body
  sound : ∀ resp, body = .ok resp → q.Sound r resp
  le : ∀ v, m.used q.key v ≤ q.spec.limit → m'.used q.key v ≤ q.spec.limit

theorem Served.refused {q : Quota} {m : Mem} {r : QuotaLeaseRequest} {code : Code} :
    Served q m r (.error code) m :=
  ⟨rfl, fun _ => (add_zero _).symm, fun _ h => (by cases h), fun _ h => h⟩

theorem served_drawn {q : Quota} (hw : q.Windowed) {m m' : Mem} (hu : ∀ v, 0 ≤ m.used q.key v)
    {r : QuotaLeaseRequest} (hk : r.stateKey = q.stateKey) {it : Item} (hit : q.Drawn it)
    {args : GrantArgs} (hpar : args.parent = none) (hreg : args.regional = false)
    {inp : GrantInput} (hp : Prepared it.ref it.spec args inp) {now : ℤ} {g : Grant}
    (hg : Granted m now inp g m') : Served q m r (.ok (grantResponse it.spec.limit g)) m' := by
  obtain ⟨href, hspec, -⟩ := hit
  have hkey : inp.key = q.key := by rw [hp.key, href, hspec]; rfl
  have halgo : inp.algo ≠ .tokenBucket := by rw [hp.algo, hspec]; exact hw.1
  have hwin : 0 < inp.win := hp.win ▸ windowMs_pos _
  have halone := hp.alone hpar
  have hused := hg.used_own halgo (absurd halone)
  rw [hkey] at hused
  refine ⟨hg.deduped, fun v => ?_, ?_, fun v hv => ?_⟩
  · rw [hused]
    simp [Quota.grantedIn, Quota.granted, grantResponse, hk, eq_comm]
  · rintro _ ⟨⟩
    refine ⟨hg.nonneg, fun _ => ?_⟩
    have he : g.expiresIn = ((now.tdiv inp.win + 1) * inp.win - now) * millisecond := by
      rw [hg.expires, nest_alone halone, measure_window halgo]
      rfl
    simp only [grantResponse, he, milliseconds_mul]
    linarith [Windows.lt_end hwin now]
  · have hl := hg.le_limit halgo (absurd halone) hwin (by rw [hkey]; exact hu)
    have hlim : (m.measureWindow inp now).limit = q.spec.limit := by
      simp [Mem.measureWindow, hp.allocBase, hreg, hp.limit, hspec]
    rw [hkey, hlim] at hl
    by_cases hv' : v = g.windowID
    · rcases hl with h0 | hl
      · rw [hused, h0]
        simpa using hv
      · rw [hv']
        exact hl
    · rw [hused, if_neg hv', add_zero]
      exact hv

theorem served_apart {q : Quota} {m m' : Mem} {r : QuotaLeaseRequest} (hk : r.stateKey ≠ q.stateKey)
    {it : Item} (hit : q.Apart it) {args : GrantArgs} {inp : GrantInput}
    (hp : Prepared it.ref it.spec args inp) {now : ℤ} {g : Grant} (hg : Granted m now inp g m') : Served q m r (.ok (grantResponse it.spec.limit g)) m' := by
  have hb : inp.algo = .tokenBucket → ∀ w, inp.key ≠ winKey q.key w := fun ha w => by
    rw [hp.key]
    exact bucketKey_ne_winKey (hp.algo ▸ ha) _ _
  have hpk : inp.parentKey ≠ q.key := by
    rcases hp.parentKey with h | h
    · rw [h]; exact q.key_ne_empty.symm
    · rw [h]; exact hit.2
  have hused := hg.used_apart (hp.key ▸ hit.1) hb hpk
  refine ⟨hg.deduped, fun v => ?_, ?_, fun v hv => hused v ▸ hv⟩
  · rw [hused]
    simp [Quota.grantedIn, Quota.granted, hk]
  · rintro _ ⟨⟩
    exact ⟨hg.nonneg, fun h => absurd h hk⟩

/-- What `resolveLease` adds to an item decides neither the quota nor its enclosing one. -/
theorem resolveLease_cases (env : HubEnv) (cfg : GatewayConfig) (cn : String) (r : QuotaLeaseRequest) :
    (∃ code, resolveLease env cfg cn r = .error code) ∨
      ∃ it it', resolve env cfg r.scope r.serviceId r.apiKey r.limitId r.tierId r.org = .ok it ∧
        resolveLease env cfg cn r = .ok it' ∧ it'.ref = it.ref ∧ it'.spec = it.spec ∧
        it'.args.parent = it.args.parent ∧ it'.args.regional = it.args.regional ∧
        it'.args.horizon = it.args.horizon := by
  unfold resolveLease
  split
  · exact .inl ⟨_, rfl⟩
  · cases hr : resolve env cfg r.scope r.serviceId r.apiKey r.limitId r.tierId r.org with
    | error code => exact .inl ⟨code, rfl⟩
    | ok it => exact .inr ⟨it, _, rfl, rfl, rfl, rfl, rfl, rfl, rfl⟩

/-- An answer to a lease request: a grant on the quota the hub resolved. -/
structure Leased (env : HubEnv) (cfg : GatewayConfig) (r : QuotaLeaseRequest) (m : Mem) (now : ℤ)
    (resp : QuotaLeaseResponse) (m' : Mem) (it : Item) (args : GrantArgs) (inp : GrantInput) (g : Grant) :
    Prop where
  resolved : resolve env cfg r.scope r.serviceId r.apiKey r.limitId r.tierId r.org = .ok it
  parent : args.parent = it.args.parent
  regional : args.regional = it.args.regional
  horizon : args.horizon = it.args.horizon
  prepared : Prepared it.ref it.spec args inp
  granted : Granted m now inp g m'
  resp : resp = grantResponse it.spec.limit g

/-- The hub refuses and leaves the ledger alone, or it grants. -/
theorem requestQuotaLease_cases (env : HubEnv) (cfg : GatewayConfig) (cn : String) (m : Mem) (ord : RangeOrder)
    (now : ℤ) (r : QuotaLeaseRequest) :
    (∃ code, requestQuotaLease env cfg cn m ord now r = (.error code, m)) ∨
      ∃ resp m' it args inp g, requestQuotaLease env cfg cn m ord now r = (.ok resp, m') ∧
        Leased env cfg r m now resp m' it args inp g := by
  unfold requestQuotaLease Mem.grant
  rcases resolveLease_cases env cfg cn r with ⟨code, h⟩ | ⟨it, it', hr, h, href, hspec, hpar, hreg, hhor⟩
  · exact .inl ⟨code, by rw [h]⟩
  · rw [h]
    dsimp only
    cases hprep : prepare it'.ref it'.spec it'.args with
    | error e => exact .inl ⟨.unknown, rfl⟩
    | ok inp =>
      have hp := prepare_prepared hprep
      have hg := grantOn_granted m ord now inp hp.target
      rw [href, hspec] at hp
      refine .inr ⟨_, _, it, it'.args, inp, _, rfl, hr, hpar, hreg, hhor, hp, hg, ?_⟩
      rw [hspec]

theorem requestQuotaLease_served {q : Quota} (hw : q.Windowed) {env : HubEnv} {cfg : GatewayConfig}
    (cn : String) {m : Mem} (hu : ∀ v, 0 ≤ m.used q.key v) (ord : RangeOrder) (now : ℤ)
    {r : QuotaLeaseRequest}
    (hf : q.Fits r.stateKey (resolve env cfg r.scope r.serviceId r.apiKey r.limitId r.tierId r.org)) :
    Served q m r (requestQuotaLease env cfg cn m ord now r).1 (requestQuotaLease env cfg cn m ord now r).2 := by
  rcases requestQuotaLease_cases env cfg cn m ord now r with ⟨code, h⟩ | ⟨resp, m', it, args, inp, g, h, hl⟩
  · rw [h]
    exact .refused
  · rw [h, hl.resp]
    rw [hl.resolved] at hf
    by_cases hk : r.stateKey = q.stateKey
    · rw [Quota.Fits, if_pos hk] at hf
      exact served_drawn hw hu hk hf (hl.parent.trans hf.2.2.1) (hl.regional.trans hf.2.2.2) hl.prepared hl.granted
    · rw [Quota.Fits, if_neg hk] at hf
      exact served_apart hk hf hl.prepared hl.granted

/-! Returns. -/

theorem resolveReturn_mine_or_other {q : Quota} {env : HubEnv} {cfg : GatewayConfig} {x : LeaseReturn}
    {r : Ret} (hr : resolveReturn env cfg x = some r) (hx : 0 ≤ x.tokens)
    (hf : q.Fits x.stateKey (resolve env cfg x.scope x.serviceId x.apiKey x.limitId x.tierId x.org)) :
    (q.Mine r ∧ x.stateKey = q.stateKey ∧ r.windowID = x.windowId ∧ r.tokens = x.tokens) ∨ q.Other r := by
  unfold resolveReturn at hr
  cases h : resolve env cfg x.scope x.serviceId x.apiKey x.limitId x.tierId x.org with
  | error code => rw [h] at hr; cases hr
  | ok it =>
    rw [h] at hr hf
    cases hr
    by_cases hk : x.stateKey = q.stateKey
    · rw [Quota.Fits, if_pos hk] at hf
      exact .inl ⟨⟨hf.1, hf.2.1, hf.2.2.1, hx⟩, hk, rfl, rfl⟩
    · rw [Quota.Fits, if_neg hk] at hf
      exact .inr hf

end Gate
