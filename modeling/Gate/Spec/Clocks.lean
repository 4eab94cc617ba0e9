import Gate.Spec.Tokens

/-! Runs on clocks that agree. The edges' clocks run ahead of the ledger's by a constant, or
behind it, and nobody's clock goes back. What a take acted on is read off the record. -/

namespace Gate

open Conc

def Instr.readsClock : Instr → Bool
  | .clock _ => true
  | _ => false

/-- Time never goes back, every reading on an edge is the ledger's time plus `off`, and the
ledger uses its own clock. -/
def steady (off : ℤ) : Pool.Cond Instr World Choice Input where
  instr i ch w := i.readsClock → ch.value = w.time + off
  event e w := match e with
    | .tick d => 0 ≤ d
    | .serve _ now _ => now = w.time
    | .credit _ now => now = w.time
    | _ => True

instance (off : ℤ) (i : Instr) (ch : Choice) (w : World) : Decidable ((steady off).instr i ch w) :=
  inferInstanceAs (Decidable (i.readsClock → ch.value = w.time + off))

instance (off : ℤ) : ∀ e w, Decidable ((steady off).event e w)
  | .tick d, _ => inferInstanceAs (Decidable (0 ≤ d))
  | .serve _ now _, w | .credit _ now, w => inferInstanceAs (Decidable (now = w.time))
  | .allow _ _ _, _ | .reserve _ _ _, _ | .settle _ _ _, _ | .sweep _ _, _ | .drain _, _
  | .sweepLocal _ _, _ => isTrue trivial

/-- Every request is one of these. -/
def requesting (P : Request → Prop) : Pool.Cond Instr World Choice Input where
  instr _ _ _ := True
  event e _ := match e with
    | .allow _ _ req => P req
    | .reserve _ _ checks => ∀ req ∈ checks, P req
    | _ => True

instance (P : Request → Prop) (i : Instr) (ch : Choice) (w : World) :
    Decidable ((requesting P).instr i ch w) := isTrue trivial

instance (P : Request → Prop) [DecidablePred P] : ∀ e w, Decidable ((requesting P).event e w)
  | .allow _ _ req, _ => inferInstanceAs (Decidable (P req))
  | .reserve _ _ checks, _ => inferInstanceAs (Decidable (∀ req ∈ checks, P req))
  | .tick _, _ | .settle _ _ _, _ | .sweep _ _, _ | .drain _, _ | .sweepLocal _ _, _ | .serve _ _ _, _
  | .credit _ _, _ => isTrue trivial

/-- What the hub makes of a request kept under the state key `k`: if it is the quota's, the
limit is the quota's. It may well be nested in an org's budget. -/
def Quota.Draws (q : Quota) (k : String) : Except Code Item → Prop
  | .error _ => True
  | .ok it => k = q.stateKey → it.spec = q.spec

instance (q : Quota) (k : String) : ∀ res, Decidable (q.Draws k res)
  | .error _ => isTrue trivial
  | .ok it => inferInstanceAs (Decidable (k = q.stateKey → it.spec = q.spec))

def Request.Draws (dep : Deployment) (q : Quota) (req : Request) : Prop :=
  q.Draws (stateKey req) (dep.resolveRequest req)

instance (dep : Deployment) (q : Quota) (req : Request) : Decidable (req.Draws dep q) :=
  inferInstanceAs (Decidable (q.Draws _ _))

/-- A take about to be tried: if the balance of `h` is still `old`, `cost` comes off it, on
the reading `t` and an expiry `exp` seen before. -/
structure Taking where
  h : HPtr
  old : ℤ
  cost : ℤ
  t : ℤ
  exp : ℤ

def Instr.taking : Instr → Option Taking
  | .casTokens h old _ (.take cost t exp) => some ⟨h, old, cost, t, exp⟩
  | _ => none

/-- A take on record. -/
structure Taken where
  h : HPtr
  cost : ℤ
  /-- the edge's reading -/
  t : ℤ
  /-- the ledger's time -/
  now : ℤ
  deriving DecidableEq

def Event.taken : Event → Option Taken
  | .take h cost t now => some ⟨h, cost, t, now⟩
  | _ => none

def takes (log : List Event) : List Taken := log.filterMap Event.taken

/-- If the event is the creation of `h`, it happened by `t`. -/
def Event.CreatedBy (h : HPtr) (t : ℤ) : Event → Prop
  | .create h' now => h' = h → now ≤ t
  | _ => True

instance (h : HPtr) (t : ℤ) : ∀ e, Decidable (Event.CreatedBy h t e)
  | .create h' now => inferInstanceAs (Decidable (h' = h → now ≤ t))
  | .take _ _ _ _ | .adjust _ _ | .receive _ _ | .deposit _ _ | .withdraw _ _ | .post _ | .grant _ _ _
  | .answer _ _ => isTrue trivial

/-- Whoever takes a token of the quota had found an expiry set, and has read the clock since
the balance was created. -/
def checkedTakes (q : Quota) (off : ℤ) : Pool.Cond Instr World Choice Input where
  instr i _ w := ∀ x ∈ i.taking, x.h.c.key = q.stateKey → w.tokens x.h = x.old →
    0 < x.exp ∧ ∀ e ∈ w.log, e.CreatedBy x.h (x.t - off)
  event _ _ := True

instance (q : Quota) (off : ℤ) (i : Instr) (ch : Choice) (w : World) :
    Decidable ((checkedTakes q off).instr i ch w) :=
  inferInstanceAs (Decidable (∀ x ∈ i.taking, x.h.c.key = q.stateKey → w.tokens x.h = x.old →
    0 < x.exp ∧ ∀ e ∈ w.log, e.CreatedBy x.h (x.t - off)))

instance (q : Quota) (off : ℤ) (e : Input) (w : World) : Decidable ((checkedTakes q off).event e w) :=
  isTrue trivial

/-! Runs of `Lease.Allow` alone. -/

/-- Nothing happens but that time passes, requests are checked and the hub grants leases. -/
def allowing : Pool.Cond Instr World Choice Input where
  instr _ _ _ := True
  event e _ := match e with
    | .tick _ | .allow _ _ _ | .serve _ _ _ => True
    | _ => False

instance (i : Instr) (ch : Choice) (w : World) : Decidable (allowing.instr i ch w) := isTrue trivial

instance : ∀ e w, Decidable (allowing.event e w)
  | .tick _, _ | .allow _ _ _, _ | .serve _ _ _, _ => isTrue trivial
  | .reserve _ _ _, _ | .settle _ _ _, _ | .sweep _ _, _ | .drain _, _ | .sweepLocal _ _, _
  | .credit _ _, _ => isFalse id

def Event.received : Event → Bool
  | .receive _ _ => true
  | _ => false

/-- No time passes while a lease request is on its way to the hub or back. -/
def prompt : Pool.Cond Instr World Choice Input where
  instr _ _ _ := True
  event e w := match e with
    | .tick _ => w.replies.isEmpty ∧ w.log.countP Event.received = w.calls.length
    | _ => True

instance (i : Instr) (ch : Choice) (w : World) : Decidable (prompt.instr i ch w) := isTrue trivial

instance : ∀ e w, Decidable (prompt.event e w)
  | .tick _, w => inferInstanceAs (Decidable (w.replies.isEmpty ∧ w.log.countP Event.received = w.calls.length))
  | .allow _ _ _, _ | .reserve _ _ _, _ | .settle _ _ _, _ | .sweep _ _, _ | .drain _, _ | .sweepLocal _ _, _
  | .serve _ _ _, _ | .credit _ _, _ => isTrue trivial

section Ages

variable (mine : String → Prop) [DecidablePred mine]

/-- Whoever takes a token acts on the current time, at which the balance has not expired. -/
def currentTakes : Pool.Cond Instr World Choice Input where
  instr i _ w := ∀ x ∈ i.taking, mine x.h.c.key → w.tokens x.h = x.old → x.t = w.time ∧ x.t < w.expiresAt x.h
  event _ _ := True

instance (i : Instr) (ch : Choice) (w : World) : Decidable ((currentTakes mine).instr i ch w) :=
  inferInstanceAs (Decidable (∀ x ∈ i.taking, mine x.h.c.key → w.tokens x.h = x.old →
    x.t = w.time ∧ x.t < w.expiresAt x.h))

instance (e : Input) (w : World) : Decidable ((currentTakes mine).event e w) := isTrue trivial

def Instr.arming : Instr → Option (HPtr × ℤ)
  | .storeExpiry h exp => some (h, exp)
  | _ => none

/-- Setting the expiry of a balance keeps to `keep`. -/
def arming (keep : World → HPtr → ℤ → Prop) : Pool.Cond Instr World Choice Input where
  instr i _ w := ∀ x ∈ i.arming, mine x.1.c.key → keep w x.1 x.2
  event _ _ := True

instance (keep : World → HPtr → ℤ → Prop) [∀ w h exp, Decidable (keep w h exp)] (i : Instr) (ch : Choice)
    (w : World) : Decidable ((arming mine keep).instr i ch w) :=
  inferInstanceAs (Decidable (∀ x ∈ i.arming, mine x.1.c.key → keep w x.1 x.2))

instance (keep : World → HPtr → ℤ → Prop) (e : Input) (w : World) : Decidable ((arming mine keep).event e w) :=
  isTrue trivial

/-- The cost of the takes from `a` to `b`. -/
def admittedIn (a b : ℤ) (log : List Event) : ℤ :=
  ((takes log).map fun x => if mine x.h.c.key ∧ a ≤ x.t ∧ x.t ≤ b then x.cost else 0).sum

/-- What a lease granted by `b` still holds after `a`. -/
def Event.leased (a b : ℤ) : Event → ℤ
  | .grant r resp now =>
    if mine r.stateKey ∧ a < now + resp.expiresInMs ∧ now ≤ b then resp.grantedTokens else 0
  | _ => 0

def leasedIn (a b : ℤ) (log : List Event) : ℤ := (log.map (Event.leased mine a b)).sum

end Ages

end Gate
