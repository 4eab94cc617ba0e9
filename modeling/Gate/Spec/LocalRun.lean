import Gate.Lib.Alone
import Gate.Spec.Reserve

/-! Reservations of one edge, one call after the other, as the local limiter sees them. Only the
windows of the local limiter are state here: what the lease limiter and the hub answer is left
open, so every pattern of answers and outages is among the runs. -/

namespace Gate

/-- A `window`; `lastSeen` only tells the sweeper what to forget. -/
structure Win where
  id : ℤ
  consumed : ℤ
  deriving DecidableEq, Repr

/-- The table of the local limiter. A key that was never seen has the zero window, as `get` makes it. -/
abbrev LocalState := String → Win

def LocalState.start : LocalState := fun _ => ⟨0, 0⟩

/-- What an instruction does to the windows; `none` is one that is not about them. -/
def localStep : (i : Instr) → LocalState → Option (i.Answer × LocalState)
  | .load (.windowID w), g => some ((g w.key).id, g)
  | .load (.windowConsumed w), g => some ((g w.key).consumed, g)
  | .store (.windowConsumed w) v, g => some ((), Function.update g w.key { g w.key with consumed := v })
  | .add (.windowConsumed w) d, g =>
    some ((g w.key).consumed + d, Function.update g w.key { g w.key with consumed := (g w.key).consumed + d })
  | .cas (.windowID w) old new, g =>
    if (g w.key).id = old then some (true, Function.update g w.key { g w.key with id := new }) else some (false, g)
  | .window edge key, g => some (⟨edge, 0, key⟩, g)
  | _, _ => none

/-- `wid` names one window for each key; charges and refunds fall into it. -/
def InWindow (wid : String → ℤ) : Instr → LocalState → Prop
  | .add (.windowConsumed w) _, g => (g w.key).id = wid w.key
  | _, _ => True

/-- The runs within one local window. -/
def localRuns (wid : String → ℤ) : Conc.Logic Instr.Answer LocalState where
  pre _ _ := True
  post i g r g' := InWindow wid i g ∧
    match localStep i g with
    | some out => r = out.1 ∧ g' = out.2
    | none => g' = g

/-- What a key has used of its window. -/
def used (wid : String → ℤ) (g : LocalState) (key : String) : ℤ :=
  if (g key).id = wid key then (g key).consumed else 0

/-- The key of the local window that admitted a check. -/
def Decision.window? (d : Decision) : Option String :=
  match d.adj with
  | some (.window w) => some w.key
  | _ => none

/-- The sum of `f` over the checks that a key's window admitted. -/
def admittedSum (f : Request → ℤ) (key : String) (results : List Decision) (checks : List Request) : ℤ :=
  ((results.zip checks).map fun x => if x.1.window? = some key then f x.2 else 0).sum

/-- What the local limiter charges for a check. -/
def charged (rule : Request → Option Request) (req : Request) : ℤ := max ((rule req).getD req).cost 1

/-- What a reservation records for a check. -/
def recorded (req : Request) : ℤ := max req.cost 1

/-! A client's calls. -/

inductive LimitCall where
  | reserve (rule : Request → Option Request) (checks : List Request)
  /-- `Settle` of the reservation made by the `i`-th call to `Reserve` -/
  | settle (i : ℕ) (actual : ℤ)

/-- A reservation, and whether it was settled. -/
structure Booking where
  res : Reservation
  settled : Bool

def Booking.live (b : Booking) : Bool := b.res.allowed && !b.settled

def client (o : LeaseOptions) (edge fuel : ℕ) : List LimitCall → List Booking → Proc Unit
  | [], _ => return ()
  | .reserve rule checks :: calls, bs => do
    let out ← reserve (fallbackAllow o edge fuel rule) fuel checks
    client o edge fuel calls (bs ++ [⟨out.1, false⟩])
  | .settle i actual :: calls, bs =>
    match bs[i]? with
    | none => client o edge fuel calls bs
    | some b =>
      if b.live then do
        settle fuel actual b.res.results b.res.costs
        client o edge fuel calls (bs.set i { b with settled := true })
      else client o edge fuel calls bs

end Gate
