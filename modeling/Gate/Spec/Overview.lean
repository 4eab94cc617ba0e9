import Gate.Lib.Groups
import Gate.Spec.Events

/-! The dashboard's overview, aggregated in process (`packages/analytics/overview.go`). Shares and
latencies are exact rationals where the source has a `float64`. -/

namespace Gate

open Time

/-- The fields of `analyticsFilterSpec` that the overview reads. -/
structure OverviewFilter where
  services : List String
  tiers : List String
  edgeIds : List String
  deriving DecidableEq, Repr

structure OverviewSpec where
  range : String
  span : ℤ
  bucket : ℤ
  start : ℤ
  finish : ℤ
  prevStart : ℤ
  filters : OverviewFilter
  deriving DecidableEq, Repr

structure OverviewKpi where
  value : ℚ
  previous : ℚ
  deriving DecidableEq, Repr

structure OverviewPoint where
  t : ℤ
  ok : ℕ
  rateLimited : ℕ
  clientError : ℕ
  upstreamError : ℕ
  p50Ms : ℚ
  p99Ms : ℚ
  deriving DecidableEq, Repr

structure OverviewRow where
  name : String
  requests : ℕ
  share : ℚ
  rateLimitedShare : ℚ
  errorShare : ℚ
  cacheHitRate : ℚ
  p90Ms : ℚ
  deriving DecidableEq, Repr

structure OverviewEvent where
  time : ℤ
  method : String
  service : String
  tier : String
  edge : String
  status : ℕ
  latencyMs : ℚ
  cacheHit : Bool
  deriving DecidableEq, Repr

structure OverviewOptions where
  services : List String
  tiers : List String
  edges : List String
  deriving DecidableEq, Repr

/-- The names of the figures at the top. -/
inductive Kpi where
  | requests
  | rps
  | successRate
  | rateLimitedShare
  | p50Ms
  | p99Ms
  | gatewayOverheadP90Ms
  | cacheHitRate
  | edgesActive
  deriving DecidableEq, Repr

structure OverviewResponse where
  range : String
  bucketSec : ℤ
  start : ℤ
  finish : ℤ
  kpis : Kpi → OverviewKpi
  series : List OverviewPoint
  byTier : List OverviewRow
  byService : List OverviewRow
  byEdge : List OverviewRow
  recent : List OverviewEvent
  filters : OverviewOptions

structure WindowStats where
  requests : ℕ
  rateLimited : ℕ
  upstreamErrors : ℕ
  clientErrors : ℕ
  cacheHits : ℕ
  p50Ms : ℚ
  p99Ms : ℚ
  overheadP90Ms : ℚ
  edges : ℕ
  deriving DecidableEq, Repr

/-! Small functions. -/

def ms (d : ℤ) : ℚ := d / millisecond

def ratio (a b : ℚ) : ℚ := if b = 0 then 0 else a / b

def quantile (sorted : List ℚ) (q : ℚ) : ℚ :=
  if sorted.length = 0 then 0
  else
    let i := ⌈q * sorted.length⌉ - 1
    sorted.getD (max 0 (min i (sorted.length - 1))).toNat 0

inductive OutcomeKind where
  | ok
  | rateLimited
  | clientError
  | upstreamError
  deriving DecidableEq, Repr

def outcomeOf (e : AnalyticsEntry) : OutcomeKind :=
  if e.responseCode = statusTooManyRequests then .rateLimited
  else if e.upstreamError ∨ 500 ≤ e.responseCode then .upstreamError
  else if 400 ≤ e.responseCode then .clientError
  else .ok

/-- The request reached the upstream. -/
def proxied (e : AnalyticsEntry) : Bool := !e.cacheHit && e.responseCode ≠ statusTooManyRequests && 0 < e.upstreamLatency

def matchesOverviewFilters (e : AnalyticsEntry) (f : OverviewFilter) : Bool :=
  let isIn (v : String) (set : List String) : Bool := set.length = 0 || set.contains v
  isIn e.service f.services && isIn e.tier f.tiers && isIn e.edgeId f.edgeIds

/-- The values of a set, without the empty one. -/
def sortedKeys (m : List String) : List String := ((m.dedup).filter fun k => k ≠ "").mergeSort (· ≤ ·)

def eventOf (e : AnalyticsEntry) : OverviewEvent :=
  ⟨e.timestamp, e.method, e.service, e.tier, e.edgeId, e.responseCode, ms e.totalLatency, e.cacheHit⟩

/-! The figures of a window. -/

/-- How often an outcome occurs. -/
def countOutcome (k : OutcomeKind) (entries : List AnalyticsEntry) : ℕ := entries.countP fun e => outcomeOf e = k

def statsOf (entries : List AnalyticsEntry) : WindowStats :=
  let lat := (entries.map fun e => ms e.totalLatency).mergeSort (· ≤ ·)
  let overhead := ((entries.filter proxied).map fun e => ms (e.totalLatency - e.upstreamLatency)).mergeSort (· ≤ ·)
  { requests := entries.length
    rateLimited := countOutcome .rateLimited entries
    upstreamErrors := countOutcome .upstreamError entries
    clientErrors := countOutcome .clientError entries
    cacheHits := entries.countP fun e => e.cacheHit
    p50Ms := quantile lat (1 / 2)
    p99Ms := quantile lat (99 / 100)
    overheadP90Ms := quantile overhead (9 / 10)
    edges := (((entries.map fun e => e.edgeId).dedup).filter fun k => k ≠ "").length }

def WindowStats.kpis (w : WindowStats) (span : ℤ) : Kpi → ℚ
  | .requests => w.requests
  -- `finite` shows a rate over no time as 0
  | .rps => w.requests / (span / second)
  | .successRate => ratio (w.requests - w.upstreamErrors) w.requests
  | .rateLimitedShare => ratio w.rateLimited w.requests
  | .p50Ms => w.p50Ms
  | .p99Ms => w.p99Ms
  | .gatewayOverheadP90Ms => w.overheadP90Ms
  | .cacheHitRate => ratio w.cacheHits w.requests
  | .edgesActive => w.edges

/-! The series. -/

/-- One turn of the loop over a bucket's events. -/
def OverviewPoint.count (p : OverviewPoint) (e : AnalyticsEntry) : OverviewPoint :=
  match outcomeOf e with
  | .rateLimited => { p with rateLimited := p.rateLimited + 1 }
  | .upstreamError => { p with upstreamError := p.upstreamError + 1 }
  | .clientError => { p with clientError := p.clientError + 1 }
  | .ok => { p with ok := p.ok + 1 }

def OverviewPoint.zero : OverviewPoint := ⟨0, 0, 0, 0, 0, 0, 0⟩

def pointOf (es : List AnalyticsEntry) : OverviewPoint :=
  let lat := (es.map fun e => ms e.totalLatency).mergeSort (· ≤ ·)
  { es.foldl OverviewPoint.count .zero with p50Ms := quantile lat (1 / 2), p99Ms := quantile lat (99 / 100) }

abbrev ByBucket (A : Type) := AList fun _ : ℤ => A

/-- The events by the second in which their bucket begins. -/
def bucketsOf (bucket : ℤ) (cur : List AnalyticsEntry) : ByBucket (List AnalyticsEntry) :=
  cur.foldl (fun m e => Groups.upsert m (unix (Time.truncate e.timestamp bucket)) fun es => es.getD [] ++ [e]) ∅

/-- The loop of `fillSeries`, for at most the given number of turns. `points` of the source maps
`pointOf` over the buckets. -/
def fillFrom (spec : OverviewSpec) (byBucket : ByBucket (List AnalyticsEntry)) : ℕ → ℤ → List OverviewPoint
  | 0, _ => []
  | n + 1, t =>
    if t < spec.finish then
      { ((byBucket.lookup (unix t)).map pointOf).getD .zero with t } :: fillFrom spec byBucket n (t + spec.bucket)
    else []

/-- As many turns as buckets fit, and one for the last of them. -/
def seriesTurns (spec : OverviewSpec) : ℕ := ((spec.finish - spec.start) / spec.bucket).toNat + 1

def fillSeries (spec : OverviewSpec) (byBucket : ByBucket (List AnalyticsEntry)) : List OverviewPoint :=
  fillFrom spec byBucket (seriesTurns spec) spec.start

/-! Rows. -/

/-- The accumulator of `rowsBy`. -/
structure RowAcc where
  row : OverviewRow
  lat : List ℚ
  deriving DecidableEq, Repr

def RowAcc.new (name : String) : RowAcc := ⟨⟨name, 0, 0, 0, 0, 0, 0⟩, []⟩

def RowAcc.add (a : RowAcc) (e : AnalyticsEntry) : RowAcc where
  row :=
    { a.row with
      requests := a.row.requests + 1
      rateLimitedShare := if outcomeOf e = .rateLimited then a.row.rateLimitedShare + 1 else a.row.rateLimitedShare
      errorShare := if outcomeOf e = .upstreamError then a.row.errorShare + 1 else a.row.errorShare
      cacheHitRate := if e.cacheHit then a.row.cacheHitRate + 1 else a.row.cacheHitRate }
  lat := a.lat ++ [ms e.totalLatency]

def RowAcc.finish (a : RowAcc) : OverviewRow :=
  let n : ℚ := a.row.requests
  { a.row with
    rateLimitedShare := a.row.rateLimitedShare / n
    errorShare := a.row.errorShare / n
    cacheHitRate := a.row.cacheHitRate / n
    p90Ms := quantile (a.lat.mergeSort (· ≤ ·)) (9 / 10) }

def rowName (k : String) : String := if k = "" then "(none)" else k

def rowGroups (key : AnalyticsEntry → String) (entries : List AnalyticsEntry) : AList fun _ : String => RowAcc :=
  entries.foldl (fun m e => Groups.upsert m (rowName (key e)) fun a => (a.getD (.new (rowName (key e)))).add e) ∅

/-- More requests come first, then the name decides. -/
def rowBefore (a b : OverviewRow) : Bool :=
  if a.requests ≠ b.requests then b.requests < a.requests else a.name ≤ b.name

def finishRows (rows : List OverviewRow) (total : ℕ) : List OverviewRow :=
  (rows.mergeSort rowBefore).map fun r => { r with share := ratio r.requests total }

def rowsBy (key : AnalyticsEntry → String) (entries : List AnalyticsEntry) : List OverviewRow :=
  finishRows ((rowGroups key entries).entries.map fun x => x.2.finish) entries.length

/-! The overview. -/

/-- `sort.Slice` by time, latest first; events of one time come in any order. -/
structure LatestFirst where
  sort : List AnalyticsEntry → List AnalyticsEntry
  perm : ∀ l, (sort l).Perm l
  sorted : ∀ l, (sort l).Pairwise fun a b => b.timestamp ≤ a.timestamp

/-- Events of one time in the order they came in. -/
def latestFirst : LatestFirst where
  sort l := l.mergeSort fun a b => b.timestamp ≤ a.timestamp
  perm l := List.mergeSort_perm l _
  sorted l := by
    have htrans : ∀ a b c : AnalyticsEntry, decide (b.timestamp ≤ a.timestamp) = true → decide (c.timestamp ≤ b.timestamp) = true →
        decide (c.timestamp ≤ a.timestamp) = true := by
      intro a b c
      simp only [decide_eq_true_eq]
      omega
    have htotal : ∀ a b : AnalyticsEntry, (decide (b.timestamp ≤ a.timestamp) || decide (a.timestamp ≤ b.timestamp)) = true := by
      intro a b
      simp only [Bool.or_eq_true, decide_eq_true_eq]
      omega
    have h := List.pairwise_mergeSort htrans htotal l
    simpa using h

def OverviewSpec.isCurrent (spec : OverviewSpec) (e : AnalyticsEntry) : Bool := spec.start ≤ e.timestamp ∧ e.timestamp < spec.finish

def OverviewSpec.isPrevious (spec : OverviewSpec) (e : AnalyticsEntry) : Bool := spec.prevStart ≤ e.timestamp ∧ e.timestamp < spec.start

/-- The first loop of `buildOverview`: the events of the two windows that the filters match. -/
def windows (spec : OverviewSpec) : List AnalyticsEntry → List AnalyticsEntry × List AnalyticsEntry
  | [] => ([], [])
  | e :: rest =>
    let (cur, prev) := windows spec rest
    if matchesOverviewFilters e spec.filters then
      if spec.isCurrent e then (e :: cur, prev)
      else if spec.isPrevious e then (cur, e :: prev)
      else (cur, prev)
    else (cur, prev)

def buildOverview (spec : OverviewSpec) (order : LatestFirst) (entries : List AnalyticsEntry) : OverviewResponse :=
  let (cur, prev) := windows spec entries
  let shown := entries.filter spec.isCurrent
  { range := spec.range
    bucketSec := spec.bucket.tdiv second
    start := spec.start
    finish := spec.finish
    kpis := fun k => ⟨(statsOf cur).kpis spec.span k, (statsOf prev).kpis spec.span k⟩
    series := fillSeries spec (bucketsOf spec.bucket cur)
    byTier := rowsBy AnalyticsEntry.tier cur
    byService := rowsBy AnalyticsEntry.service cur
    byEdge := rowsBy AnalyticsEntry.edgeId cur
    recent := ((order.sort cur).take 15).map eventOf
    filters :=
      { services := sortedKeys (shown.map AnalyticsEntry.service)
        tiers := sortedKeys (shown.map AnalyticsEntry.tier)
        edges := sortedKeys (shown.map AnalyticsEntry.edgeId) } }

/-! The ranges the dashboard offers. -/

/-- `overviewRanges`: the span and the size of a bucket. -/
def overviewRanges : String → Option (ℤ × ℤ)
  | "15m" => some (15 * minute, 15 * second)
  | "1h" => some (hour, minute)
  | "6h" => some (6 * hour, 5 * minute)
  | "24h" => some (24 * hour, 15 * minute)
  | "7d" => some (7 * 24 * hour, hour)
  | _ => none

/-- `parseOverviewQuery`, of the range (trimmed) and the filters; the end includes the bucket in progress. -/
def parseOverviewQuery (range : String) (filters : OverviewFilter) (now : ℤ) : Except String OverviewSpec :=
  let rng := if range = "" then "1h" else range
  match overviewRanges rng with
  | none => .error ("unsupported range \"" ++ rng ++ "\" (use 15m, 1h, 6h, 24h or 7d)")
  | some (span, bucket) =>
    let finish := Time.truncate now bucket + bucket
    let start := finish - span
    .ok ⟨rng, span, bucket, start, finish, start - span, filters⟩

end Gate
