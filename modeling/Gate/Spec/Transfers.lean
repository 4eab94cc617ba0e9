import Gate.Lib.Run
import Gate.Spec.Hub

/-! Borrowing between regions (`packages/region/node.go`, `RegionServer.Borrow`). Every region
has a ledger of its own, shared by its hubs, and reads a clock of its own at each call. A
region that runs short asks a peer; the request and the reply may be lost, delayed or
delivered any number of times, so both stay in the network once they are sent. Which quota
ran out and which peer is asked is left open. -/

namespace Gate

structure BorrowRequest where
  scope : String
  serviceId : String
  apiKey : String
  limitId : String
  tierId : String
  windowId : ℤ
  want : ℤ
  transferId : String
  deriving DecidableEq, Repr

/-- `region.Need`: a quota a region ran out of in one window, and how peers name it. -/
structure Need where
  ref : Ref
  spec : Spec
  window : ℤ
  request : BorrowRequest
  deriving DecidableEq, Repr

/-- `ledger.WindowOf`. -/
def windowOf (s : Spec) (now : ℤ) : ℤ := now.tdiv (windowMs s)

/-- Two digits of `hex.EncodeToString`. -/
def hexByte (b : UInt8) : List Char := [Nat.digitChar (b.toNat / 16), Nat.digitChar (b.toNat % 16)]

def transferID (b : Vector UInt8 12) : String := String.ofList (b.toList.flatMap hexByte)

/-- A quarter of the quota a round. -/
def borrowWant (need : Need) : ℤ := max (need.spec.limit.tdiv 4) 1

def borrowRequest (need : Need) (id : String) : BorrowRequest :=
  { need.request with windowId := need.window, want := borrowWant need, transferId := id }

/-- `RegionServer.Borrow`: the allocation is debited before the answer is sent. -/
def regionBorrow (env : HubEnv) (cfg : GatewayConfig) (m : Mem) (now now' : ℤ) (r : BorrowRequest) :
    Except Code ℤ × Mem :=
  if env.region = none then (.error .failedPrecondition, m)
  else if r.transferId = "" ∨ r.want ≤ 0 then (.error .invalidArgument, m)
  else match resolve env cfg r.scope r.serviceId r.apiKey r.limitId r.tierId "" with
  | .error code => (.error code, m)
  | .ok it =>
    if !it.args.regional then (.error .failedPrecondition, m)
    else match m.lend now now' it.ref it.spec it.args.allocBase r.windowId r.want 0 r.transferId with
    | (.error _, m) => (.error .unavailable, m)
    | (.ok given, m) => (.ok given, m)

/-- The hubs of each region. -/
structure Regions (ι : Type) where
  env : ι → HubEnv
  cfg : ι → GatewayConfig

/-- One call of `Node.borrow`, with a record of what became of it. -/
structure Transfer (ι : Type) where
  fromRegion : ι
  peer : ι
  need : Need
  id : String
  /-- what the peer has taken from its allocation for it -/
  debited : ℤ
  /-- whether the borrower's ledger has taken the credit -/
  credited : Bool

def Transfer.key {ι : Type} (t : Transfer ι) : String := t.need.ref.key t.need.spec.algo

structure Net (ι : Type) where
  ledgers : ι → Mem
  transfers : List (Transfer ι)
  /-- answers sent: the transfer each belongs to, and what was given -/
  replies : List (ℕ × ℤ)

inductive NetAct (ι : Type) where
  | grant (i : ι) (ord : RangeOrder) (now : ℤ) (it : Item)
  | ret (i : ι) (now : ℤ) (dedupe : String) (rs : List Ret)
  /-- a node finds a need of the current window and asks a peer -/
  | borrow (i peer : ι) (now : ℤ) (need : Need) (bytes : Vector UInt8 12)
  /-- a request reaches the peer -/
  | lend (k : ℕ) (now now' : ℤ)
  /-- a reply reaches the borrower -/
  | credit (r : ℕ) (now : ℤ)

namespace Net

variable {ι : Type} [DecidableEq ι]

def init : Net ι := ⟨fun _ => Mem.new, [], []⟩

def setLedger (n : Net ι) (i : ι) (m : Mem) : Net ι := { n with ledgers := Function.update n.ledgers i m }

/-- The peer's side of transfer `k`. An error sends nothing the borrower acts on. -/
def lend (d : Regions ι) (n : Net ι) (k : ℕ) (t : Transfer ι) (now now' : ℤ) : Net ι :=
  let m := n.ledgers t.peer
  match regionBorrow (d.env t.peer) (d.cfg t.peer) m now now' (borrowRequest t.need t.id) with
  | (.error _, m') => n.setLedger t.peer m'
  | (.ok given, m') =>
    let taken := m.allocation t.need.ref t.need.spec t.need.window - m'.allocation t.need.ref t.need.spec t.need.window
    { n.setLedger t.peer m' with
      transfers := n.transfers.set k { t with debited := t.debited + taken }
      replies := n.replies ++ [(k, given)] }

/-- `Node.borrow` on a reply: a positive amount is credited under the transfer's ID. -/
def credit (n : Net ι) (k : ℕ) (t : Transfer ι) (given now : ℤ) : Net ι :=
  if given ≤ 0 then n
  else match (n.ledgers t.fromRegion).creditAlloc now t.need.ref t.need.spec t.need.window given t.id with
  | (.ok true, m') =>
    { n.setLedger t.fromRegion m' with transfers := n.transfers.set k { t with credited := true } }
  | (_, m') => n.setLedger t.fromRegion m'

/-- `borrow` stops where `Rebalance` drops a need whose window has ended, and where twelve
random bytes repeat. -/
def step (d : Regions ι) (n : Net ι) : NetAct ι → Option (Net ι)
  | .grant i ord now it => some (n.setLedger i ((n.ledgers i).grant ord now it.ref it.spec it.args).2)
  | .ret i now dedupe rs => some (n.setLedger i ((n.ledgers i).ret now dedupe rs).2)
  | .borrow i peer now need bytes =>
    if windowOf need.spec now = need.window ∧ ∀ t ∈ n.transfers, t.id ≠ transferID bytes then
      some { n with transfers := n.transfers ++ [⟨i, peer, need, transferID bytes, 0, false⟩] }
    else none
  | .lend k now now' => (n.transfers[k]?).map fun t => n.lend d k t now now'
  | .credit r now => (n.replies[r]?).bind fun a => (n.transfers[a.1]?).map fun t => n.credit a.1 t a.2 now

end Net

/-- A quota split between regions: each has a constant part of it to begin a window with. -/
structure GlobalQuota (ι : Type) where
  ref : Ref
  spec : Spec
  base : ι → ℤ
  fixed : spec.algo.or = .fixedWindow
  nonneg : ∀ i, 0 ≤ base i

namespace GlobalQuota

variable {ι : Type} (q : GlobalQuota ι)

def key : String := q.ref.key q.spec.algo

def total [Fintype ι] : ℤ := ∑ i, q.base i

/-- A region's own part of the quota, with nothing around it. -/
def Drawn (i : ι) (it : Item) : Prop :=
  it.spec = q.spec ∧ it.args.parent = none ∧ it.args.regional = true ∧ it.args.allocBase = q.base i

instance (i : ι) (it : Item) : Decidable (q.Drawn i it) := inferInstanceAs (Decidable (_ ∧ _))

/-- An item that draws on a region's part of the quota, or on something apart from it. -/
def Fits (i : ι) (it : Item) : Prop :=
  if it.ref.key it.spec.algo = q.key then q.Drawn i it else it.ref.parentKey .fixedWindow ≠ q.key

instance (i : ι) (it : Item) : Decidable (q.Fits i it) :=
  inferInstanceAs (Decidable (if it.ref.key it.spec.algo = q.key then q.Drawn i it
    else it.ref.parentKey .fixedWindow ≠ q.key))

/-- Unspent tokens for the quota. -/
def Unspent (r : Ret) : Prop := r.spec = q.spec ∧ r.parent = none ∧ 0 ≤ r.tokens

instance (r : Ret) : Decidable (q.Unspent r) := inferInstanceAs (Decidable (_ ∧ _))

/-- A return of unspent tokens to the quota, or of anything to something apart from it. -/
def FitsReturn (r : Ret) : Prop :=
  if r.ref.key r.spec.algo = q.key then q.Unspent r else r.ref.parentKey .fixedWindow ≠ q.key

instance (r : Ret) : Decidable (q.FitsReturn r) :=
  inferInstanceAs (Decidable (if r.ref.key r.spec.algo = q.key then q.Unspent r
    else r.ref.parentKey .fixedWindow ≠ q.key))

/-- What a peer makes of a request is the quota the borrower is short of. -/
def FitsNeed (peer : ι) (need : Need) : Except Code Item → Prop
  | .error _ => True
  | .ok it => it.ref = need.ref ∧ it.spec = need.spec ∧ q.Fits peer it

instance (peer : ι) (need : Need) : ∀ res, Decidable (q.FitsNeed peer need res)
  | .error _ => isTrue trivial
  | .ok it => inferInstanceAs (Decidable (_ ∧ _ ∧ q.Fits peer it))

/-- The calls a deployment makes when the quota's parts are constant. -/
def calls (d : Regions ι) : NetAct ι → Prop
  | .grant i _ _ it => q.Fits i it
  | .ret _ _ _ rs => ∀ r ∈ rs, q.FitsReturn r
  | .borrow _ peer _ need _ => q.FitsNeed peer need (resolve (d.env peer) (d.cfg peer) need.request.scope
      need.request.serviceId need.request.apiKey need.request.limitId need.request.tierId "")
  | .lend _ _ _ | .credit _ _ => True

instance (d : Regions ι) : ∀ a, Decidable (q.calls d a)
  | .grant i _ _ it => inferInstanceAs (Decidable (q.Fits i it))
  | .ret _ _ _ rs => inferInstanceAs (Decidable (∀ r ∈ rs, q.FitsReturn r))
  | .borrow _ peer _ need _ => inferInstanceAs (Decidable (q.FitsNeed peer need _))
  | .lend _ _ _ | .credit _ _ => isTrue trivial

/-- A region's allocation for a window: its base, plus what it borrowed, less what it lent. -/
def allocation (n : Net ι) (i : ι) (w : ℤ) : ℤ := q.base i + (n.ledgers i).allocation q.ref q.spec w

def used (n : Net ι) (i : ι) (w : ℤ) : ℤ := (n.ledgers i).used q.key w

/-- What a transfer has taken from the window and not brought back to it. -/
def pending (w : ℤ) (t : Transfer ι) : ℤ :=
  if t.key = q.key ∧ t.need.window = w ∧ t.credited = false then t.debited else 0

def inTransit (n : Net ι) (w : ℤ) : ℤ := (n.transfers.map (q.pending w)).sum

end GlobalQuota

end Gate
