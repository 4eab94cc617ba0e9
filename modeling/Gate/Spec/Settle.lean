import Gate.Spec.Hub
import Gate.Spec.Redis
import Gate.Spec.Rls

/-! Settling a reservation (`packages/decide/service.go`): the token's items go back to the hub, and
from there to the ledger. A token is what it carries; one that is malformed or forged is refused
before this. -/

namespace Gate

namespace Decide

/-- A replica of the decision service: the common name of its certificate and its `EdgeID`. -/
structure Replica where
  cn : String
  edgeID : String
  deriving DecidableEq, Repr

/-- What an item returns, unless the actual cost is its estimate. -/
def settleItem (domain : String) (actual : ℤ) (it : ReservationItem) : Option LeaseReturn :=
  let delta := it.estimate - max actual 0
  if delta ≠ 0 then some {
    scope := scope, serviceId := domain, apiKey := it.subject, limitId := it.limit, tierId := "", org := ""
    windowId := it.window, parentWindowId := 0, tokens := delta }
  else none

def settleRequest (edgeID : String) (t : ReservationToken) (actual : ℤ) : ReturnLeasesRequest where
  edgeId := edgeID
  dedupe := "settle-" ++ t.nonce
  returns := t.items.filterMap (settleItem t.domain actual)

inductive SettleErr where
  | badReservation
  | ledger (e : Err)
  deriving DecidableEq, Repr

/-- `Settle` at the replica's time `clock`, in milliseconds; `deliver` is the call of the hub. -/
def settle {σ : Type} (deliver : σ → ReturnLeasesRequest → Except Err Unit × σ) (edgeID : String) (clock : ℤ) (s : σ)
    (t : ReservationToken) (actual : ℤ) : Except SettleErr Unit × σ :=
  if t.exp < clock / 1000 then (.error .badReservation, s)
  else
    let req := settleRequest edgeID t actual
    if req.returns = [] then (.ok (), s)
    else match deliver s req with
      | (.ok _, s) => (.ok (), s)
      | (.error e, s) => (.error (.ledger e), s)

end Decide

/-- `ReturnLeases` over Redis. -/
def Redis.returnLeases (env : HubEnv) (cfg : GatewayConfig) (cn : String) (r : Redis) (now : ℤ) (req : ReturnLeasesRequest) :
    Except Err Unit × Redis :=
  r.ret now (returnDedupe cn req) (req.returns.filterMap (resolveReturn env cfg))

/-- `Settle` at a replica, with the ledger in Redis. -/
def Redis.settle (env : HubEnv) (cfg : GatewayConfig) (rep : Decide.Replica) (clock : ℤ) (r : Redis) (now : ℤ)
    (t : Decide.ReservationToken) (actual : ℤ) : Except Decide.SettleErr Unit × Redis :=
  Decide.settle (fun r req => r.returnLeases env cfg rep.cn now req) rep.edgeID clock r t actual

/-- `Settle` at a replica, with the ledger in memory. -/
def Mem.settle (env : HubEnv) (cfg : GatewayConfig) (rep : Decide.Replica) (clock : ℤ) (m : Mem) (now : ℤ)
    (t : Decide.ReservationToken) (actual : ℤ) : Except Decide.SettleErr Unit × Mem :=
  Decide.settle (fun m req => Gate.returnLeases env cfg rep.cn m now req) rep.edgeID clock m t actual

namespace Decide

/-- The ID that a replica's settlement of a token is known by. -/
def settleDedupe (rep : Replica) (t : ReservationToken) : String :=
  returnDedupe rep.cn (settleRequest rep.edgeID t 0)

/-- What a settlement returns to the ledger. -/
def settleReturns (env : HubEnv) (cfg : GatewayConfig) (t : ReservationToken) (actual : ℤ) : List Ret :=
  (t.items.filterMap (settleItem t.domain actual)).filterMap (resolveReturn env cfg)

/-- The key under which Redis keeps that a return has been applied. -/
def settleMark (rep : Replica) (t : ReservationToken) (x : Ret) : String :=
  retKey (x.ref.key x.spec.algo) (settleDedupe rep t)

/-- A settlement as a call of the ledger. -/
def settleCall (env : HubEnv) (cfg : GatewayConfig) (rep : Replica) (now : ℤ) (t : ReservationToken) (actual : ℤ) : LedgerCall :=
  ⟨now, .ret (settleDedupe rep t) (settleReturns env cfg t actual)⟩

/-- A call of `Settle`. -/
structure SettleCall where
  rep : Replica
  actual : ℤ
  /-- the replica's time, and the ledger's -/
  clock : ℤ
  now : ℤ
  deriving DecidableEq, Repr

namespace ReservationToken

variable (t : ReservationToken)

def itemRef (it : ReservationItem) : Ref := ⟨scope, t.domain, it.limit, it.subject, ""⟩

def itemKey (it : ReservationItem) : String := (t.itemRef it).key .fixedWindow

/-- The hub has the items' limits, and they are fixed windows. -/
def Known (env : HubEnv) (cfg : GatewayConfig) : Prop :=
  ∀ it ∈ t.items, ∃ i, Gate.resolve env cfg scope t.domain it.subject it.limit "" "" = .ok i ∧
    i.spec.algo.or = .fixedWindow ∧ i.spec.validate = .ok ()

/-- The windows that were charged are those of a time. -/
def Current (env : HubEnv) (cfg : GatewayConfig) (now : ℤ) : Prop :=
  ∀ it ∈ t.items, ∀ i, Gate.resolve env cfg scope t.domain it.subject it.limit "" "" = .ok i →
    now.tdiv (windowMs i.spec) = it.window

/-- What the items of a quota return. -/
def deltas (actual : ℤ) (key : String) : List ℤ :=
  (t.items.filter fun it => t.itemKey it = key).map fun it => it.estimate - max actual 0

/-- What of it is sent: an item that returns nothing is not. -/
def sent (actual : ℤ) (key : String) : List ℤ := (t.deltas actual key).filter fun d => d ≠ 0

end ReservationToken

/-- The counter `u` comes out right if only the first of the items counts: there is nothing to the
others together, or the first alone leaves nothing. -/
def FirstIsAll (u : ℤ) : List ℤ → Prop
  | [] => True
  | d :: ds => ds.sum = 0 ∨ (u ≤ d ∧ u ≤ d + ds.sum)

instance (u : ℤ) : (ds : List ℤ) → Decidable (FirstIsAll u ds)
  | [] => isTrue trivial
  | d :: ds => inferInstanceAs (Decidable (ds.sum = 0 ∨ (u ≤ d ∧ u ≤ d + ds.sum)))

/-- A settlement whose ID has been used on the quota, or that sends nothing for it, or that returns to
a counter `u` of zero. -/
def Idle (t : ReservationToken) (key : String) (m : Mem) (u : ℤ) (c : SettleCall) : Prop :=
  m.deduped (retKey key (settleDedupe c.rep t)) = true ∨ t.sent c.actual key = [] ∨
    (u = 0 ∧ ∃ d ∈ (t.sent c.actual key).head?, 0 < d)

instance (t : ReservationToken) (key : String) (m : Mem) (u : ℤ) (c : SettleCall) : Decidable (Idle t key m u c) :=
  inferInstanceAs (Decidable (_ ∨ _ ∨ (_ ∧ ∃ d ∈ (t.sent c.actual key).head?, _)))

end Decide

/-- The ledger after a sequence of settlements of a token. -/
def Mem.settleAll (env : HubEnv) (cfg : GatewayConfig) (m : Mem) (t : Decide.ReservationToken) (calls : List Decide.SettleCall) : Mem :=
  calls.foldl (fun m c => (m.settle env cfg c.rep c.clock c.now t c.actual).2) m

/-- The ledger after a sequence of calls. -/
def Redis.execAll (r : Redis) (cs : List LedgerCall) : Redis := cs.foldl (fun r c => (r.exec c).2) r

/-- How long Redis keeps the mark of a return, in milliseconds. -/
def Ret.markTTL (x : Ret) : ℤ := 2 * milliseconds (max x.spec.period second)

def LedgerKey.isReturned : LedgerKey → Bool
  | .returned _ _ => true
  | _ => false

/-- No counter, arrival time or other ID that the call uses is written like one of the marks. -/
def LedgerCall.SparesMarks (marks : List String) (c : LedgerCall) : Prop :=
  ∀ y ∈ c.keys, y.text ∈ marks → y.isReturned = true

instance (marks : List String) (c : LedgerCall) : Decidable (c.SparesMarks marks) :=
  inferInstanceAs (Decidable (∀ y ∈ c.keys, _))

end Gate
