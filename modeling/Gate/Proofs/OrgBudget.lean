import Gate.Proofs.TokenAge

/-! An org's budget, end to end. Every key's lease is granted inside the org's window and
lasts no longer than it, so what the org's keys are admitted in a window comes out of the
leases charged to that window, unless a renewal carries older tokens into it. -/

namespace Gate

open Conc

/-- An org's budget in a service, as the hub resolves it. -/
structure OrgBudget where
  scope : String
  service : String
  parent : String
  spec : Spec
  deriving DecidableEq

namespace OrgBudget

/-- The ledger key it is kept under. -/
def key (o : OrgBudget) : String := Ref.parentKey ⟨o.scope, o.service, "", "", o.parent⟩ .fixedWindow

/-- The length of the org's windows, in milliseconds. -/
def win (o : OrgBudget) : ℤ := windowMs o.spec

/-- What the hub makes of a request kept under the state key `k`: for a key of the org, a
windowed quota inside the budget, and otherwise something apart from it. -/
def Fits (o : OrgBudget) (mine : String → Prop) [DecidablePred mine] (k : String) : Except Code Item → Prop
  | .error _ => True
  | .ok it =>
    if mine k then it.ref.parent ≠ "" ∧ it.ref.parentKey .fixedWindow = o.key ∧ it.args.parent = some o.spec ∧
      it.spec.algo.or ≠ .tokenBucket
    else it.ref.key it.spec.algo ≠ o.key ∧ it.ref.parentKey .fixedWindow ≠ o.key

instance (o : OrgBudget) (mine : String → Prop) [DecidablePred mine] (k : String) :
    ∀ res, Decidable (o.Fits mine k res)
  | .error _ => isTrue trivial
  | .ok _ => inferInstanceAs (Decidable (if mine k then _ else _))

/-- Tokens still held are not carried across the start of a window of the org. -/
def Keeps (o : OrgBudget) (w : World) (h : HPtr) (exp : ℤ) : Prop :=
  w.tokens h ≤ 0 ∨ (exp - 1) / o.win ≤ (w.expiresAt h - 1) / o.win

instance (o : OrgBudget) (w : World) (h : HPtr) (exp : ℤ) : Decidable (o.Keeps w h exp) :=
  inferInstanceAs (Decidable (_ ∨ _))

end OrgBudget

/-- Only a tier's quota is nested. -/
theorem resolve_nested {env : HubEnv} {cfg : GatewayConfig} {scope service subject limitID tierID org : String}
    {it : Item} (h : resolve env cfg scope service subject limitID tierID org = .ok it)
    (hp : it.args.parent ≠ none) : it.ref.limit = "" := by
  have hargs : ∀ p : LeasePolicy, (leaseArgs p).parent = none := fun p => by
    unfold leaseArgs
    split <;> rfl
  unfold resolve at h
  split at h
  · cases h
  split at h
  · unfold resolveDescriptor at h
    split at h
    · cases h
    · cases h
      exact absurd rfl hp
  split at h
  · cases h
  · rename_i p svc _
    dsimp only at h
    split at h
    · unfold resolveNamed at h
      split at h
      · cases h
      · cases h
        exact absurd (hargs _) hp
    · rename_i hl
      have hl' : limitID = "" := not_not.mp hl
      have hregion : ∀ it, (withRegion env svc subject it).ref = it.ref := fun it => by
        unfold withRegion
        split <;> rfl
      have horg : ∀ o it, (withOrg env p svc o it).ref.limit = it.ref.limit := fun o it => by
        unfold withOrg
        split
        · rfl
        · split <;> rfl
      unfold resolveTier at h
      cases hc : callerOf env svc scope subject tierID org with
      | error code => simp [hc, bind, Except.bind] at h
      | ok caller =>
        simp only [hc, bind, Except.bind, pure, Except.pure, throw, throwThe, MonadExceptOf.throw] at h
        split at h
        · cases h
        · cases h
          rw [horg, hregion]
          exact hl'

section

variable {o : OrgBudget} {mine : String → Prop} [DecidablePred mine] {n : ℕ}

/-- The budget's counter covers the leases that count, and stays within the budget. -/
structure OrgBudget.Covers (o : OrgBudget) (mine : String → Prop) [DecidablePred mine] (n : ℕ) (m : Mem)
    (log : List Event) : Prop where
  leased : leasedIn mine (n * o.win) ((n + 1) * o.win - 1) log ≤ m.used o.key n
  le : m.used o.key n ≤ o.spec.limit

theorem OrgBudget.Covers.note {m : Mem} {log : List Event} {e : Event} (he : e.isGrant = false)
    (h : o.Covers mine n m log) : o.Covers mine n m (e :: log) := by
  have h0 : Event.leased mine (n * o.win) ((n + 1) * o.win - 1) e = 0 := by
    cases e <;> first | rfl | cases he
  refine ⟨?_, h.le⟩
  rw [leasedIn_cons, h0, zero_add]
  exact h.leased

/-- A moment before the end of window `n` of a clock that started at zero is in window `n`, if
the window that holds it ends after the start of window `n`. -/
theorem tdiv_eq_of_overlap {win now : ℤ} (hw : 0 < win) (hn : now ≤ (n + 1) * win - 1)
    (he : (n : ℤ) * win < (now.tdiv win + 1) * win) : now.tdiv win = n := by
  have h₁ : (n : ℤ) < now.tdiv win + 1 := lt_of_mul_lt_mul_right he hw.le
  refine le_antisymm ?_ (Int.lt_add_one_iff.mp h₁)
  by_cases h0 : 0 ≤ now
  · rw [Int.tdiv_eq_ediv_of_nonneg h0]
    exact Int.lt_add_one_iff.mp ((Int.ediv_lt_iff_lt_mul hw).mpr (by linarith))
  · rw [← neg_neg now, Int.neg_tdiv]
    have : 0 ≤ (-now).tdiv win := Int.tdiv_nonneg (by omega) hw.le
    omega

/-- A lease inside the budget is charged to the window it counts for. -/
theorem OrgBudget.Covers.draw {env : HubEnv} {cfg : GatewayConfig} {r : QuotaLeaseRequest} {m m' : Mem} {now : ℤ}
    {resp : QuotaLeaseResponse} {it : Item} {args : GrantArgs} {inp : GrantInput} {g : Grant} {log : List Event}
    (hl : Leased env cfg r m now resp m' it args inp g) (hne : it.ref.parent ≠ "")
    (hkey : it.ref.parentKey .fixedWindow = o.key) (hpar : it.args.parent = some o.spec)
    (halgo : it.spec.algo.or ≠ .tokenBucket) (h : o.Covers mine n m log) :
    o.Covers mine n m' (.grant r resp now :: log) := by
  obtain ⟨hpk, hplim, hpwin⟩ := hl.prepared.nested o.spec (hl.parent.trans hpar) hne
  have halgo' : inp.algo ≠ .tokenBucket := hl.prepared.algo ▸ halgo
  have hpk0 : inp.parentKey ≠ "" := hpk ▸ parentKey_ne_empty _ _
  have hown : inp.key ≠ inp.parentKey := by
    rw [hl.prepared.key, hpk]
    exact tierKey_ne_parentKey (resolve_nested hl.resolved (by rw [hpar]; exact Option.some_ne_none _)) hne _ _
  have hwin : 0 < o.win := windowMs_pos _
  obtain ⟨hle, hused⟩ := hl.granted.used_parent halgo' hpk0 hown
  rw [hpk, hkey] at hle hused
  rw [hpwin, show windowMs o.spec = o.win from rfl] at hle hused
  rw [hplim] at hle
  have hgrant : resp.grantedTokens = g.granted := by rw [hl.resp]; rfl
  have hend : now + resp.expiresInMs ≤ (now.tdiv o.win + 1) * o.win := by
    have hexp : resp.expiresInMs = (m.nest inp (m.measure inp now) now).expires := by
      rw [hl.resp]
      simp only [grantResponse, hl.granted.expires, milliseconds_mul]
    have hnest : (m.nest inp (m.measure inp now) now).expires ≤ (now.tdiv o.win + 1) * o.win - now := by
      unfold Mem.nest
      rw [if_neg hpk0, hpwin]
      exact min_le_right _ _
    linarith
  have hevent : Event.leased mine (n * o.win) ((n + 1) * o.win - 1) (.grant r resp now) ≤
      if (n : ℤ) = now.tdiv o.win then g.granted else 0 := by
    simp only [Event.leased, hgrant]
    split
    · rename_i hc
      rw [if_pos (tdiv_eq_of_overlap hwin hc.2.2 (by linarith [hc.2.1])).symm]
    · split
      · exact hl.granted.nonneg
      · exact le_rfl
  refine ⟨?_, ?_⟩
  · rw [leasedIn_cons, hused n]
    linarith [h.leased]
  · rw [hused n]
    split
    · rename_i heq
      rw [← heq] at hle
      rcases hle with h0 | hle
      · rw [h0, add_zero]
        exact h.le
      · exact hle
    · rw [add_zero]
      exact h.le

/-- A lease apart from the budget. -/
theorem OrgBudget.Covers.other {env : HubEnv} {cfg : GatewayConfig} {r : QuotaLeaseRequest} {m m' : Mem} {now : ℤ}
    {resp : QuotaLeaseResponse} {it : Item} {args : GrantArgs} {inp : GrantInput} {g : Grant} {log : List Event}
    (hl : Leased env cfg r m now resp m' it args inp g) (hk : ¬mine r.stateKey)
    (hkey : it.ref.key it.spec.algo ≠ o.key) (hpkey : it.ref.parentKey .fixedWindow ≠ o.key)
    (h : o.Covers mine n m log) : o.Covers mine n m' (.grant r resp now :: log) := by
  have h0 : Event.leased mine (n * o.win) ((n + 1) * o.win - 1) (.grant r resp now) = 0 := by
    simp [Event.leased, hk]
  have hb : inp.algo = .tokenBucket → ∀ v, inp.key ≠ winKey o.key v := fun ha v => by
    rw [hl.prepared.key]
    exact bucketKey_ne_winKey (hl.prepared.algo ▸ ha) _ _
  have hp : inp.parentKey ≠ o.key := by
    rcases hl.prepared.parentKey with h | h
    · rw [h]; exact (parentKey_ne_empty _ _).symm
    · rw [h]; exact hpkey
  have hused : m'.used o.key n = m.used o.key n :=
    hl.granted.used_apart (hl.prepared.key ▸ hkey) hb hp n
  refine ⟨?_, hused ▸ h.le⟩
  rw [leasedIn_cons, h0, zero_add, hused]
  exact h.leased

theorem OrgBudget.Covers.lease {env : HubEnv} {cfg : GatewayConfig} {r : QuotaLeaseRequest} {m m' : Mem} {now : ℤ}
    {resp : QuotaLeaseResponse} {it : Item} {args : GrantArgs} {inp : GrantInput} {g : Grant} {log : List Event}
    (hQ : o.Fits mine r.stateKey (.ok it)) (hl : Leased env cfg r m now resp m' it args inp g)
    (h : o.Covers mine n m log) : o.Covers mine n m' (.grant r resp now :: log) := by
  by_cases hk : mine r.stateKey
  · rw [OrgBudget.Fits, if_pos hk] at hQ
    obtain ⟨hne, hkey, hpar, halgo⟩ := hQ
    exact .draw hl hne hkey hpar halgo h
  · rw [OrgBudget.Fits, if_neg hk] at hQ
    exact .other hl hk hQ.1 hQ.2 h

theorem covers_obey (dep : Deployment) (n : ℕ) :
    Obeys dep (ledgerRegime dep (o.Fits mine)) (aging dep (o.Fits mine) mine o.Keeps)
      fun w _ => o.Covers mine n w.ledger w.log :=
  ledger_obey (fun _ _ _ he h => h.note he) fun hQ hl h => h.lease hQ hl

/-- What is kept does not cross the start of a window. -/
theorem OrgBudget.Keeps.start {w : World} {h : HPtr} {exp : ℤ} (hk : o.Keeps w h exp) (n : ℕ)
    (h₁ : w.expiresAt h ≤ n * o.win) (h₂ : n * o.win < exp) : w.tokens h ≤ 0 := by
  have hwin : 0 < o.win := windowMs_pos _
  refine hk.resolve_right (not_le.mpr ?_)
  calc (w.expiresAt h - 1) / o.win < n := (Int.ediv_lt_iff_lt_mul hwin).mpr (by linarith)
    _ ≤ (exp - 1) / o.win := (Int.le_ediv_iff_mul_le hwin).mpr (by linarith)

end

namespace Sample

def orgEnv : HubEnv := { env with owner := fun _ _ => some "acme" }

def orgService : ServiceConfig := { service with org := some ⟨10, second⟩ }

def orgDep : Deployment := { dep with env := orgEnv, cfg := ⟨[⟨"v1", 10 * second, [orgService]⟩], [], ""⟩ }

def orgBudget : OrgBudget := ⟨"v1", "svc", "acme", ⟨.fixedWindow, 10, second, 0⟩⟩

def orgFirst : List EdgeAct :=
  [.env (.allow 0 3 (request 1))] ++ steps 13 0 5900 ++ steps 7 1 5900 ++ [.env (.serve 0 5900 order)] ++
    steps 8 1 5900 ++ steps 18 0 5900

/-- The lease ends with the org's window, so it is renewed; the hub serves the renewal in the
org's next window, and nine tokens of the last one go with it. -/
def orgRenewal : List EdgeAct :=
  orgFirst ++ steps 3 2 5900 ++ steps 5 3 5900 ++
    [.env (.tick 105), .env (.serve 1 6005 order), .env (.tick 5)] ++ steps 8 3 6010 ++
    [.env (.allow 0 3 (request 19))] ++ steps 21 4 6010

end Sample

end Gate
