import Gate.Spec.Edges

/-! Where the tokens of a window are. A quota is kept in the ledger under its key and on
every edge under its state key; a token granted from it is in a reply, in the hands of a
goroutine, in a balance, in a return, or spent. -/

namespace Gate

def QuotaLeaseRequest.stateKey (r : QuotaLeaseRequest) : String :=
  r.scope ++ "\x00" ++ r.serviceId ++ "\x00" ++ r.limitId ++ "\x00" ++ r.apiKey

def LeaseReturn.stateKey (r : LeaseReturn) : String :=
  r.scope ++ "\x00" ++ r.serviceId ++ "\x00" ++ r.limitId ++ "\x00" ++ r.apiKey

structure Quota where
  ref : Ref
  spec : Spec
  deriving DecidableEq, Repr

namespace Quota

def key (q : Quota) : String := q.ref.key q.spec.algo

def stateKey (q : Quota) : String :=
  q.ref.scope ++ "\x00" ++ q.ref.service ++ "\x00" ++ q.ref.limit ++ "\x00" ++ q.ref.subject

/-- A fixed or sliding window with a positive limit. -/
def Windowed (q : Quota) : Prop := q.spec.algo.or ≠ .tokenBucket ∧ 0 < q.spec.limit

instance (q : Quota) : Decidable q.Windowed := inferInstanceAs (Decidable (_ ∧ _))

/-- An item that draws on the quota alone: no enclosing quota, no regional allocation. -/
def Drawn (q : Quota) (it : Item) : Prop :=
  it.ref = q.ref ∧ it.spec = q.spec ∧ it.args.parent = none ∧ it.args.regional = false

instance (q : Quota) (it : Item) : Decidable (q.Drawn it) := inferInstanceAs (Decidable (_ ∧ _))

/-- An item that does not touch the quota. -/
def Apart (q : Quota) (it : Item) : Prop :=
  it.ref.key it.spec.algo ≠ q.key ∧ it.ref.parentKey .fixedWindow ≠ q.key

instance (q : Quota) (it : Item) : Decidable (q.Apart it) := inferInstanceAs (Decidable (_ ∧ _))

/-- What the hub makes of a request kept under the state key `k`: the quota itself if it is
the quota's state key, and otherwise something apart from it. -/
def Fits (q : Quota) (k : String) : Except Code Item → Prop
  | .error _ => True
  | .ok it => if k = q.stateKey then q.Drawn it else q.Apart it

instance (q : Quota) (k : String) : ∀ res, Decidable (q.Fits k res)
  | .error _ => isTrue trivial
  | .ok it => inferInstanceAs (Decidable (if k = q.stateKey then q.Drawn it else q.Apart it))

end Quota

/-- How the hub resolves the quota a request names. -/
def Deployment.resolveRequest (dep : Deployment) (req : Request) : Except Code Item :=
  resolve dep.env dep.cfg req.scope req.service req.key req.limitID req.tier req.org

def Request.Fits (dep : Deployment) (q : Quota) (req : Request) : Prop :=
  q.Fits (stateKey req) (dep.resolveRequest req)

instance (dep : Deployment) (q : Quota) (req : Request) : Decidable (req.Fits dep q) :=
  inferInstanceAs (Decidable (q.Fits _ _))

/-- Edges share the quota, among any others; settlements never charge more than was reserved. -/
def sharedQuota (dep : Deployment) (q : Quota) : Conc.Pool.Cond Instr World Choice Input where
  instr _ _ _ := True
  event e w := match e with
    | .allow _ _ req => req.Fits dep q
    | .reserve _ _ checks => ∀ req ∈ checks, req.Fits dep q
    | .settle i actual _ => ∀ r ∈ w.reservations[i]?, ∀ c ∈ r.1.costs, max actual 0 ≤ c
    | _ => True

instance (dep : Deployment) (q : Quota) (i : Instr) (ch : Choice) (w : World) :
    Decidable ((sharedQuota dep q).instr i ch w) := isTrue trivial

instance (dep : Deployment) (q : Quota) : ∀ e w, Decidable ((sharedQuota dep q).event e w)
  | .allow _ _ req, _ => inferInstanceAs (Decidable (req.Fits dep q))
  | .reserve _ _ checks, _ => inferInstanceAs (Decidable (∀ req ∈ checks, req.Fits dep q))
  | .settle i actual _, w =>
    inferInstanceAs (Decidable (∀ r ∈ w.reservations[i]?, ∀ c ∈ r.1.costs, max actual 0 ≤ c))
  | .tick _, _ | .sweep _ _, _ | .drain _, _ | .sweepLocal _ _, _ | .serve _ _ _, _ | .credit _ _, _ =>
    isTrue trivial

/-! The books, for one quota and one window of it. -/

section Books

variable (q : Quota) (win : ℤ)

/-- A balance of the quota, labelled with the window. -/
def Quota.Label (h : HPtr) : Prop := h.c.key = q.stateKey ∧ h.win = win

instance (h : HPtr) : Decidable (q.Label win h) := inferInstanceAs (Decidable (_ ∧ _))

/-- The tokens of the window in an answer. -/
def Quota.granted (r : QuotaLeaseRequest) (resp : QuotaLeaseResponse) : ℤ :=
  if r.stateKey = q.stateKey ∧ resp.windowId = win then resp.grantedTokens else 0

def Quota.returned (r : LeaseReturn) : ℤ :=
  if r.stateKey = q.stateKey ∧ r.windowId = win then r.tokens else 0

def Quota.returnedIn (r : ReturnLeasesRequest) : ℤ := (r.returns.map (q.returned win)).sum

/-- The cost admitted from the window, less what adjustments put back. -/
def Quota.net : Event → ℤ
  | .take h cost _ _ => if q.Label win h then cost else 0
  | .adjust h n => if q.Label win h then -n else 0
  | _ => 0

/-- What an event adds to the tokens of the window that goroutines have in hand. -/
def Quota.hand : Event → ℤ
  | .receive r resp => q.granted win r resp
  | .deposit h n => if q.Label win h then -n else 0
  | .withdraw h n => if q.Label win h then n else 0
  | .post r => -q.returnedIn win r
  | _ => 0

def Quota.netAdmitted (log : List Event) : ℤ := (log.map (q.net win)).sum

def Quota.inHands (log : List Event) : ℤ := (log.map (q.hand win)).sum

/-- The tokens of the window in an answer, if it is one. -/
def Quota.grantedIn (r : QuotaLeaseRequest) : Except Code QuotaLeaseResponse → ℤ
  | .ok resp => q.granted win r resp
  | .error _ => 0

def Quota.inReplies (replies : List Reply) : ℤ := (replies.map fun r => q.grantedIn win r.req r.body).sum

/-- A return still to be credited: the ledger has not seen its dedupe key. -/
def Quota.inReturn (dep : Deployment) (m : Mem) (p : Post) : ℤ :=
  if m.deduped (retKey q.key (returnDedupe (dep.cn p.edge) p.body)) then 0 else q.returnedIn win p.body

def Quota.inReturns (dep : Deployment) (m : Mem) (posts : List Post) : ℤ :=
  (posts.map (q.inReturn win dep m)).sum

end Books

end Gate
