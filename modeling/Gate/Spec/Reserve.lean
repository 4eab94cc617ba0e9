import Gate.Spec.Lease

/-! The local safety limiter, the fallback to it, and reservations over several limits
(`packages/limiter/local.go`, `reserve.go`). -/

namespace Gate

namespace Local

/-- `window.roll`, without its second result, which only tests read. -/
def roll (w : WPtr) (period now : ℤ) : Proc (Option ℤ) := do
  store (.windowSeen w) now
  let ms := milliseconds period
  if ms ≤ 0 then return none
  else
    let id := now.tdiv ms
    let prev ← load (.windowID w)
    if prev = id then return some ((id + 1) * ms)
    else if ← cas (.windowID w) prev id then
      store (.windowConsumed w) 0
      return some ((id + 1) * ms)
    else return some ((id + 1) * ms)

def allow (edge : ℕ) (req : Request) : Proc Decision := do
  let cost := max req.cost 1
  let w ← getWindow edge (stateKey req)
  let now ← clock edge
  let stop ← roll w req.window now
  let d := { Decision.zero with limit := req.limit, resetAt := stop }
  let used ← add (.windowConsumed w) cost
  if req.limit < used then
    let _ ← add (.windowConsumed w) (-cost)
    let consumed ← load (.windowConsumed w)
    return { d with remaining := max 0 (req.limit - consumed) }
  else
    let gen ← load (.windowID w)
    return { d with allowed := true, remaining := req.limit - used, adj := some (.window w), gen := gen }

/-- `window.adjust`: a refund after the window rolled is dropped. -/
def adjust (w : WPtr) (gen delta : ℤ) : Proc Unit := do
  let id ← load (.windowID w)
  if id = gen ∨ 0 < delta then
    let _ ← add (.windowConsumed w) delta
    return ()
  else return ()

def evict (cutoff : ℤ) : List WPtr → Proc Unit
  | [] => return ()
  | w :: ws => do
    let seen ← load (.windowSeen w)
    if seen < cutoff then
      deleteWindow w
      evict cutoff ws
    else evict cutoff ws

/-- One turn of `Run`. -/
def sweep (edge : ℕ) (cutoff : ℤ) : Proc Unit := do
  let visited ← rangeWindows edge
  evict cutoff visited

end Local

/-- `Fallback.Allow`, over the lease and the local limiter. -/
def fallbackAllow (o : LeaseOptions) (edge fuel : ℕ) (rule : Request → Option Request) (req : Request) :
    Proc (Except LimitErr Decision) := do
  match ← Lease.allow o edge fuel req with
  | .ok d => return .ok d
  | .error .unavailable =>
    match rule req with
    | none => return .error .unavailable
    | some sreq =>
      let d ← Local.allow edge sreq
      return .ok { d with fallback := true }
  | .error e => return .error e

def Decision.adjust (fuel : ℕ) (d : Decision) (delta : ℤ) : Proc Unit :=
  if delta = 0 then return ()
  else match d.adj with
  | none => return ()
  | some (.held h) => Lease.adjust fuel h delta d.maxDebt
  | some (.window w) => Local.adjust w d.gen delta

/-- Refunds the charges made so far. -/
def rollback (fuel : ℕ) : List Decision → List ℤ → Proc (List Decision)
  | d :: ds, c :: cs => do
    if d.allowed then
      d.adjust fuel (-c)
      let ds ← rollback fuel ds cs
      return { d with allowed := false } :: ds
    else
      let ds ← rollback fuel ds cs
      return d :: ds
  | ds, _ => return ds

/-- Ranks decisions by the fraction of their limit left. -/
def remainingShare (d : Decision) : ℚ := if d.limit ≤ 0 then 1 else (d.remaining : ℚ) / d.limit

/-- One turn of the loop that picks the decision to report. -/
def bindStep (acc : Decision × ℤ) (x : (Decision × Request) × ℕ) : Decision × ℤ :=
  if x.1.2.shadow then acc
  else if acc.2 < 0 ∨ remainingShare x.1.1 < remainingShare acc.1 then (x.1.1, x.2)
  else acc

/-- The decision to report for an admitted request, and its index. -/
def bindingOf (results : List Decision) (checks : List Request) : Decision × ℤ :=
  let b := ((results.zip checks).zipIdx).foldl bindStep (Decision.zero, -1)
  match results with
  | d :: _ => if b.2 < 0 then (d, 0) else b
  | [] => b

def Reservation.start : Reservation := ⟨false, Decision.zero, -1, [], [], false, []⟩

/-- The checks after a rolled-back one stay at their zero values. -/
def Reservation.pad (r : Reservation) (checks : List Request) : Reservation :=
  { r with
    results := r.results ++ List.replicate (checks.length - r.results.length) Decision.zero
    costs := r.costs ++ List.replicate (checks.length - r.costs.length) 0 }

/-- The loop of `Reserve`; `r` holds the checks done so far. -/
def reserveFrom (allow : Request → Proc (Except LimitErr Decision)) (fuel : ℕ) (checks : List Request) :
    List Request → Reservation → Proc (Reservation × Option LimitErr)
  | [], r =>
    let b := bindingOf r.results checks
    return ({ r with allowed := true, binding := b.1, bindingIndex := b.2 }, none)
  | req :: rest, r => do
    let costs := r.costs ++ [max req.cost 1]
    match ← allow req with
    | .error e =>
      if req.shadow then
        reserveFrom allow fuel checks rest { r with results := r.results ++ [Decision.zero], costs := costs }
      else
        let results ← rollback fuel r.results r.costs
        return (({ r with results := results, costs := costs } : Reservation).pad checks, some e)
    | .ok d =>
      let r' := { r with
        results := r.results ++ [d], costs := costs, fallback := r.fallback || d.fallback }
      if d.allowed then reserveFrom allow fuel checks rest r'
      else if req.shadow then
        reserveFrom allow fuel checks rest { r' with shadowDenied := r.shadowDenied ++ [r.results.length] }
      else
        let results ← rollback fuel r.results r.costs
        return (({ r' with
          results := results ++ [d], binding := d, bindingIndex := r.results.length } : Reservation).pad
            checks, none)

def reserve (allow : Request → Proc (Except LimitErr Decision)) (fuel : ℕ) (checks : List Request) :
    Proc (Reservation × Option LimitErr) :=
  reserveFrom allow fuel checks checks Reservation.start

/-- The loop of `Settle`, after its guard. -/
def settle (fuel : ℕ) (actual : ℤ) : List Decision → List ℤ → Proc Unit
  | d :: ds, c :: cs => do
    if d.allowed then
      d.adjust fuel (max actual 0 - c)
      settle fuel actual ds cs
    else settle fuel actual ds cs
  | _, _ => return ()

end Gate
