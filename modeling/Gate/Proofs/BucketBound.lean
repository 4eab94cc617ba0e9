import Gate.Lib.Gcra
import Gate.Proofs.TokenAge

/-! What a token bucket admits, end to end. The ledger paces the leases; how long after its
lease a token can still be spent adds to the interval. -/

namespace Gate

open Conc

/-- How long a bucket's lease lasts. -/
def GrantArgs.leaseMs (args : GrantArgs) : ℤ :=
  if 0 < args.horizon then milliseconds args.horizon else milliseconds second

/-- What the hub makes of a request kept under the state key `k`: if it is the quota's, a
draw on the bucket with leases of `H` milliseconds, and otherwise a draw on other keys. -/
def Quota.Bucket (q : Quota) (H : ℤ) (k : String) : Except Code Item → Prop
  | .error _ => True
  | .ok it => if k = q.stateKey then it.ref = q.ref ∧ it.spec = q.spec ∧ it.args.leaseMs = H
      else it.ref.key it.spec.algo ≠ q.key

instance (q : Quota) (H : ℤ) (k : String) : ∀ res, Decidable (q.Bucket H k res)
  | .error _ => isTrue trivial
  | .ok _ => inferInstanceAs (Decidable (if k = q.stateKey then _ else _))

/-- Tokens still held are given no later expiry. -/
def keepsExpiry (w : World) (h : HPtr) (exp : ℤ) : Prop := w.tokens h ≤ 0 ∨ exp ≤ w.expiresAt h

instance (w : World) (h : HPtr) (exp : ℤ) : Decidable (keepsExpiry w h exp) := inferInstanceAs (Decidable (_ ∨ _))

section

variable {q : Quota} {H a b : ℤ}

/-- The ledger has paced the leases that count. -/
def Quota.Paces (q : Quota) (H a b : ℤ) (m : Mem) (log : List Event) : Prop :=
  leasedIn (· = q.stateKey) a b log = 0 ∨ ∃ tat, m.vals q.key = some tat ∧
    Gcra.Paced (1000 / q.spec.rate) (q.spec.limit * (1000 / q.spec.rate)) (a - H : ℤ) b
      (leasedIn (· = q.stateKey) a b log) tat

theorem Quota.Paces.note {m : Mem} {log : List Event} {e : Event} (he : e.isGrant = false)
    (h : q.Paces H a b m log) : q.Paces H a b m (e :: log) := by
  have h0 : Event.leased (· = q.stateKey) a b e = 0 := by
    cases e <;> first | rfl | cases he
  unfold Quota.Paces at h ⊢
  rw [leasedIn_cons, h0, zero_add]
  exact h

/-- A bucket's lease lasts as configured, or less inside an enclosing quota. -/
theorem Leased.lease_le {env : HubEnv} {cfg : GatewayConfig} {r : QuotaLeaseRequest} {m m' : Mem} {now : ℤ}
    {resp : QuotaLeaseResponse} {it : Item} {args : GrantArgs} {inp : GrantInput} {g : Grant}
    (hl : Leased env cfg r m now resp m' it args inp g) (ha : inp.algo = .tokenBucket)
    (h0 : 0 < it.args.leaseMs) : resp.expiresInMs ≤ it.args.leaseMs := by
  have hms : m.measure inp now = m.measureBucket inp now := if_pos ha
  have httl : (m.measureBucket inp now).expires = it.args.leaseMs := by
    simp only [Mem.measureBucket, hl.prepared.ttl, hl.horizon, GrantArgs.leaseMs]
  have hexp : resp.expiresInMs = (m.nest inp (m.measureBucket inp now) now).expires := by
    rw [hl.resp, ← hms]
    simp only [grantResponse, hl.granted.expires, milliseconds_mul]
  rw [hexp, ← httl]
  exact (nest_expires m inp _ now hl.prepared.pwin (by rw [httl]; exact h0)).2

/-- A lease from the bucket. -/
theorem Quota.Paces.draw {env : HubEnv} {cfg : GatewayConfig} {r : QuotaLeaseRequest} {m m' : Mem} {now : ℤ}
    {resp : QuotaLeaseResponse} {it : Item} {args : GrantArgs} {inp : GrantInput} {g : Grant} {log : List Event}
    (hq : q.spec.algo.or = .tokenBucket) (hH : 0 < H)
    (hl : Leased env cfg r m now resp m' it args inp g) (hk : r.stateKey = q.stateKey) (href : it.ref = q.ref)
    (hspec : it.spec = q.spec) (hms : it.args.leaseMs = H) (h : q.Paces H a b m log) :
    q.Paces H a b m' (.grant r resp now :: log) := by
  have halgo : inp.algo = .tokenBucket := by rw [hl.prepared.algo, hspec]; exact hq
  have hkey : inp.key = q.key := by rw [hl.prepared.key, href, hspec]; rfl
  have hle : resp.expiresInMs ≤ H := hms ▸ hl.lease_le halgo (hms ▸ hH)
  have hgrant : resp.grantedTokens = g.granted := by rw [hl.resp]; rfl
  have hevent : Event.leased (· = q.stateKey) a b (.grant r resp now) =
      if a < now + resp.expiresInMs ∧ now ≤ b then g.granted else 0 := by
    simp only [Event.leased, hk, true_and, hgrant]
  have hpre : Prepared it.ref q.spec args inp := hspec ▸ hl.prepared
  have h' : m.Paces inp.key q.spec (a - H) b (leasedIn (· = q.stateKey) a b log) := hkey ▸ h
  obtain ⟨hin, hout⟩ := h'.grant hpre hl.granted hq
  rw [hkey] at hin hout
  unfold Quota.Paces
  rw [leasedIn_cons, hevent]
  by_cases hc : a < now + resp.expiresInMs ∧ now ≤ b
  · rw [if_pos hc, add_comm]
    exact hin (by linarith [hc.1]) hc.2
  · rw [if_neg hc, zero_add]
    exact hout

/-- A lease from anything else. -/
theorem Quota.Paces.other {env : HubEnv} {cfg : GatewayConfig} {r : QuotaLeaseRequest} {m m' : Mem} {now : ℤ}
    {resp : QuotaLeaseResponse} {it : Item} {args : GrantArgs} {inp : GrantInput} {g : Grant} {log : List Event}
    (hq : q.spec.algo.or = .tokenBucket) (hl : Leased env cfg r m now resp m' it args inp g)
    (hk : r.stateKey ≠ q.stateKey) (hkey : it.ref.key it.spec.algo ≠ q.key) (h : q.Paces H a b m log) :
    q.Paces H a b m' (.grant r resp now :: log) := by
  have h0 : Event.leased (· = q.stateKey) a b (.grant r resp now) = 0 := by simp [Event.leased, hk]
  have hv : m'.vals q.key = m.vals q.key := by
    refine hl.granted.vals_apart ?_ (fun v => bucketKey_ne_winKey hq _ _) fun v => bucketKey_ne_winKey hq _ _
    rw [hl.prepared.key]
    exact hkey.symm
  unfold Quota.Paces at h ⊢
  rw [leasedIn_cons, h0, zero_add, hv]
  exact h

/-- Whatever the hub leases, the bucket's leases stay paced. -/
theorem Quota.Paces.lease {env : HubEnv} {cfg : GatewayConfig} {r : QuotaLeaseRequest} {m m' : Mem} {now : ℤ}
    {resp : QuotaLeaseResponse} {it : Item} {args : GrantArgs} {inp : GrantInput} {g : Grant} {log : List Event}
    (hq : q.spec.algo.or = .tokenBucket) (hH : 0 < H) (hQ : q.Bucket H r.stateKey (.ok it))
    (hl : Leased env cfg r m now resp m' it args inp g) (h : q.Paces H a b m log) :
    q.Paces H a b m' (.grant r resp now :: log) := by
  by_cases hk : r.stateKey = q.stateKey
  · rw [Quota.Bucket, if_pos hk] at hQ
    exact .draw hq hH hl hk hQ.1 hQ.2.1 hQ.2.2 h
  · rw [Quota.Bucket, if_neg hk] at hQ
    exact .other hq hl hk hQ h

theorem paces_obey (dep : Deployment) (a b : ℤ) (hq : q.spec.algo.or = .tokenBucket) (hH : 0 < H) :
    Obeys dep (ledgerRegime dep (q.Bucket H)) (aging dep (q.Bucket H) (· = q.stateKey) keepsExpiry)
      fun w _ => q.Paces H a b w.ledger w.log :=
  ledger_obey (fun _ _ _ he h => h.note he) fun hQ hl h => h.lease hq hH hQ hl

/-- A lease lifetime counts whole milliseconds, and there is one. -/
theorem lasting_of_leaseMs {it : Item} (h : 0 < it.args.leaseMs) : it.Lasting := by
  intro _
  by_contra hcon
  obtain ⟨hpos, hlt⟩ := not_or.mp hcon
  have h0 : it.args.leaseMs = 0 := by
    rw [GrantArgs.leaseMs, if_pos (not_le.mp hpos), milliseconds,
      Int.tdiv_eq_ediv_of_nonneg (not_le.mp hpos).le]
    exact Int.ediv_eq_zero_of_lt (not_le.mp hpos).le (not_le.mp hlt)
  omega

end

namespace Sample

def bucketService : ServiceConfig := { service with tiers := [⟨"t", 20, .tokenBucket, 10⟩] }

def bucketDep : Deployment :=
  { dep with cfg := ⟨[⟨"v1", second, [bucketService]⟩], [], ""⟩, opts := fun _ => ⟨15, 20, 0, 0, ""⟩ }

def bucketRequest (cost : ℤ) : Request := { request cost with limit := 20, algo := .tokenBucket }

def bucketQuota : Quota := ⟨⟨"v1", "svc", "", "key", ""⟩, ⟨.tokenBucket, 20, second, 10⟩⟩

def bucketFirst : List EdgeAct :=
  [.env (.allow 0 3 (bucketRequest 1))] ++ steps 12 0 5000 ++ steps 7 1 5000 ++ [.env (.serve 0 5000 order)] ++
    steps 8 1 5000 ++ steps 17 0 5000

/-- A request by the goroutine `t` that renews the lease at once. -/
def topUp (t call : ℕ) (now : ℤ) : List EdgeAct :=
  [.env (.allow 0 3 (bucketRequest 1))] ++ steps 21 t now ++ steps 3 (t + 1) now ++ steps 8 (t + 2) now ++
    [.env (.serve call now order)] ++ steps 8 (t + 2) now ++ steps 2 (t + 1) now

/-- Every renewal gives the tokens still held another second. -/
def hoard : List EdgeAct :=
  bucketFirst ++ steps 3 2 5000 ++ steps 5 3 5000 ++ [.env (.serve 1 5000 order)] ++ steps 8 3 5000 ++
    steps 2 2 5000 ++ [.env (.tick 900)] ++ topUp 4 2 5900 ++ [.env (.tick 900)] ++ topUp 7 3 6800 ++
  -- 35 tokens are held by now, and are spent at once
  [.env (.tick 900), .env (.allow 0 3 (bucketRequest 12))] ++ steps 21 10 7700 ++
    [.env (.allow 0 3 (bucketRequest 12))] ++ steps 20 12 7700 ++ [.env (.allow 0 3 (bucketRequest 11))] ++
    steps 20 13 7700

end Sample

end Gate
