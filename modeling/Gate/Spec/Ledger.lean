import Mathlib.Data.Rat.Floor
import Mathlib.Algebra.Order.Floor.Ring
import Mathlib.Tactic

/-! The ledger's vocabulary (`packages/ledger/ledger.go`, `args.go`): limit specs, the
keys a quota lives under, and the reduction of a grant or a return to the numbers that
both ledger implementations use. Durations are nanoseconds, as in `time.Duration`;
rates are exact rationals where the source has a `float64`. -/

namespace Gate

/-! Durations. -/

def millisecond : ℤ := 1000000
def second : ℤ := 1000000000

/-- `Duration.Milliseconds`: Go's integer division truncates. -/
def milliseconds (d : ℤ) : ℤ := d.tdiv millisecond

/-- Go's conversion of a `float64` to an integer drops the fraction. -/
def truncate (q : ℚ) : ℤ := if q < 0 then ⌈q⌉ else ⌊q⌋

/-- An algorithm name. `unset` is the empty string, `other` any name the ledger does not know. -/
inductive Algo where
  | unset
  | fixedWindow
  | slidingWindow
  | tokenBucket
  | other (name : String)
  deriving DecidableEq, Repr

def Algo.valid : Algo → Bool
  | .other _ => false
  | _ => true

def Algo.or : Algo → Algo
  | .unset => .fixedWindow
  | a => a

def Algo.text : Algo → String
  | .unset => ""
  | .fixedWindow => "fixed_window"
  | .slidingWindow => "sliding_window"
  | .tokenBucket => "token_bucket"
  | .other name => name

structure Spec where
  algo : Algo
  /-- cost per window, or the bucket's burst -/
  limit : ℤ
  window : ℤ
  /-- token bucket: cost per second -/
  rate : ℚ
  deriving DecidableEq, Repr

def Spec.period (s : Spec) : ℤ :=
  if s.algo.or = .tokenBucket then
    if s.rate ≤ 0 then second else truncate (s.limit / s.rate * second)
  else max s.window second

structure Ref where
  scope : String
  service : String
  /-- "" is the caller's tier limit -/
  limit : String
  subject : String
  parent : String
  deriving DecidableEq, Repr

/-- The hash tag is the subject, or the parent when there is one. -/
def Ref.key (r : Ref) (algo : Algo) : String :=
  "gate:\x7b" ++ r.scope ++ ":" ++ r.service ++ ":" ++
    (if r.parent ≠ "" then "org:" ++ r.parent else r.subject) ++ "\x7d:" ++
    (if r.limit = "" then "tier" else r.limit) ++
    (if r.parent ≠ "" then ":" ++ r.subject else "") ++ ":" ++ algo.or.text

def Ref.parentKey (r : Ref) (algo : Algo) : String :=
  "gate:\x7b" ++ r.scope ++ ":" ++ r.service ++ ":org:" ++ r.parent ++ "\x7d:org:" ++ algo.or.text

structure GrantArgs where
  requested : ℤ
  edgeID : String
  horizon : ℤ
  observedRate : ℚ
  minGrant : ℤ
  maxGrant : ℤ
  parent : Option Spec
  regional : Bool
  allocBase : ℤ
  deriving DecidableEq, Repr

structure Grant where
  granted : ℤ
  remaining : ℤ
  windowID : ℤ
  expiresIn : ℤ
  resetIn : ℤ
  retryAfter : ℤ
  activeEdges : ℤ
  parentWindowID : ℤ
  deriving DecidableEq, Repr

/-- A `ledger.Return`: unspent tokens, or debt when negative. -/
structure Ret where
  ref : Ref
  spec : Spec
  parent : Option Spec
  windowID : ℤ
  parentWindowID : ℤ
  tokens : ℤ
  deriving DecidableEq, Repr

inductive Err where
  | badSpec
  deriving DecidableEq, Repr

def Spec.validate (s : Spec) : Except Err Unit :=
  if !s.algo.valid || s.limit ≤ 0 then .error .badSpec
  else if s.algo.or = .tokenBucket ∧ s.rate ≤ 0 then .error .badSpec
  else .ok ()

/-- The size of a grant: the request, or the edge's demand over the horizon, in `[minGrant, maxGrant]`. -/
def GrantArgs.target (a : GrantArgs) : ℤ :=
  let want := a.requested
  let want := if 0 < a.horizon ∧ 0 < a.observedRate then
      max want (truncate (a.observedRate * (a.horizon / second : ℚ) + 999 / 1000)) else want
  let want := if 0 < a.minGrant then max want a.minGrant else want
  let want := if 0 < a.maxGrant then min want a.maxGrant else want
  max want 1

def bankerCapPct : ℤ := 25

structure GrantInput where
  algo : Algo
  key : String
  limit : ℤ
  win : ℤ
  rate : ℚ
  target : ℤ
  edge : String
  activeMs : ℤ
  ttl : ℤ
  /-- "" when there is no enclosing quota -/
  parentKey : String
  plimit : ℤ
  pwin : ℤ
  /-- -1 when the quota is not a regional allocation -/
  allocBase : ℤ
  deriving DecidableEq, Repr

def windowMs (s : Spec) : ℤ := milliseconds (max s.window second)

def winKey (base : String) (wid : ℤ) : String := base ++ ":" ++ toString wid

def allocKey (base : String) (wid : ℤ) : String := base ++ ":alloc:" ++ toString wid

/-- The part of `prepare` that does not depend on an enclosing quota. -/
def prepareOwn (ref : Ref) (spec : Spec) (args : GrantArgs) : GrantInput where
  algo := spec.algo.or
  key := ref.key spec.algo
  limit := spec.limit
  win := windowMs spec
  rate := spec.rate
  target := if args.target > spec.limit
    then min args.target (max 1 ((spec.limit * bankerCapPct).tdiv 100)) else args.target
  edge := args.edgeID
  activeMs := milliseconds (max (2 * args.horizon) (2 * second))
  ttl := if 0 < args.horizon then milliseconds args.horizon else milliseconds second
  parentKey := ""
  plimit := 0
  pwin := 0
  allocBase := if args.regional then args.allocBase else -1

def prepare (ref : Ref) (spec : Spec) (args : GrantArgs) : Except Err GrantInput := do
  spec.validate
  if args.regional ∧ (spec.algo.or ≠ .fixedWindow ∨ args.allocBase < 0) then throw .badSpec
  let inp := prepareOwn ref spec args
  match args.parent with
  | some p =>
    if ref.parent = "" then return inp
    if p.limit ≤ 0 ∨ p.algo.or ≠ .fixedWindow then throw .badSpec
    return { inp with parentKey := ref.parentKey .fixedWindow, plimit := p.limit, pwin := windowMs p }
  | none => return inp

/-- `grantInput.result`: the script's reply
`{granted, remaining, window_id, expires_ms, reset_ms, retry_ms, active_edges, parent_window_id}`. -/
def result (granted remaining wid expires reset retry n pwid : ℤ) : Grant where
  granted := granted
  remaining := max 0 remaining
  windowID := wid
  expiresIn := expires * millisecond
  resetIn := max 0 reset * millisecond
  retryAfter := retry * millisecond
  activeEdges := n
  parentWindowID := pwid

structure ReturnInput where
  algo : Algo
  key : String
  win : ℤ
  rate : ℚ
  wid : ℤ
  tokens : ℤ
  parentKey : String
  pwin : ℤ
  pwid : ℤ
  dedupeKey : String
  dedupeTTL : ℤ
  deriving DecidableEq, Repr

def retKey (base dedupe : String) : String := base ++ ":ret:" ++ dedupe

def prepareReturn (r : Ret) (dedupe : String) : Except Err ReturnInput := do
  r.spec.validate
  let key := r.ref.key r.spec.algo
  let nested := if r.ref.parent ≠ "" then r.parent else none
  let period := match nested with
    | some p => max r.spec.period p.period
    | none => r.spec.period
  return {
    algo := r.spec.algo.or
    key := key
    win := windowMs r.spec
    rate := r.spec.rate
    wid := r.windowID
    tokens := r.tokens
    parentKey := if nested.isSome then r.ref.parentKey .fixedWindow else ""
    pwin := (nested.map windowMs).getD 0
    pwid := if nested.isSome then r.parentWindowID else 0
    dedupeKey := if dedupe ≠ "" then retKey key dedupe else ""
    dedupeTTL := if dedupe ≠ "" then 2 * milliseconds (max period second) else 0 }

end Gate
