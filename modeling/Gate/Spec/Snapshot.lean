import Gate.Lib.Groups
import Gate.Spec.Events
import Mathlib.Data.Finset.Basic

/-! The aggregates of the analytics service (`packages/analytics/server.go`): buckets of counters that
every event is added to, and the snapshot reported from them. Averages and percentiles are exact
rationals where the source has a `float64`. -/

namespace Gate

open Time

def defaultHistoryWindow : ℤ := 7 * 24 * hour

def defaultPercentileCap : ℕ := 2048

/-- `supportedIntervals`, with the size of a bucket. -/
def supportedIntervals : String → Option ℤ
  | "1m" => some minute
  | "5m" => some (5 * minute)
  | "15m" => some (15 * minute)
  | "1h" => some hour
  | _ => none

/-- The span that is reported for an interval. -/
def intervalRangeWindow : String → Option ℤ
  | "1m" => some hour
  | "5m" => some (6 * hour)
  | "15m" => some (24 * hour)
  | "1h" => some (7 * 24 * hour)
  | _ => none

def microsecondsToMilliseconds (us : ℚ) : ℚ := us / 1000

/-! A bounded sample of values. -/

structure BoundedPercentiles where
  capacity : ℕ
  count : ℕ
  values : List ℤ
  rng : UInt64
  deriving Repr

def newBoundedPercentiles (capacity : ℕ) : BoundedPercentiles :=
  ⟨if capacity = 0 then defaultPercentileCap else capacity, 0, [], 0x9e3779b97f4a7c15⟩

namespace BoundedPercentiles

def nextIndex (bp : BoundedPercentiles) (n : ℕ) : Option ℕ × BoundedPercentiles :=
  if n = 0 then (none, bp)
  else
    let rng := bp.rng + 0x9e3779b97f4a7c15
    let z := (rng ^^^ (rng >>> 30)) * 0xbf58476d1ce4e5b9
    let z := (z ^^^ (z >>> 27)) * 0x94d049bb133111eb
    let z := z ^^^ (z >>> 31)
    (some (z % UInt64.ofNat n).toNat, { bp with rng := rng })

def add (bp : BoundedPercentiles) (v : ℤ) : BoundedPercentiles :=
  let bp := { bp with count := bp.count + 1 }
  if bp.values.length < bp.capacity then { bp with values := bp.values ++ [v] }
  else match bp.nextIndex bp.count with
    | (some idx, bp) => if idx < bp.capacity then { bp with values := bp.values.set idx v } else bp
    | (none, bp) => bp

/-- The values that `other` no longer holds are only counted. -/
def merge (bp other : BoundedPercentiles) : BoundedPercentiles :=
  let bp := other.values.foldl add bp
  { bp with count := bp.count + (other.count - other.values.length) }

def percentile (bp : BoundedPercentiles) (p : ℚ) : ℚ :=
  if bp.values.length = 0 then 0
  else
    let sorted := bp.values.mergeSort (· ≤ ·)
    let rank := p / 100 * (sorted.length - 1 : ℕ)
    let lo := ⌊rank⌋.toNat
    let hi := lo + 1
    if sorted.length ≤ hi then sorted.getD lo 0
    else
      let frac := rank - lo
      sorted.getD lo 0 * (1 - frac) + sorted.getD hi 0 * frac

end BoundedPercentiles

/-! Counters. -/

structure StatsAccumulator where
  count : ℕ
  totalLatencyUsSum : ℤ
  upstreamLatencySum : ℤ
  upstreamSamples : ℕ
  rateLimiterUsSum : ℤ
  totals : Option BoundedPercentiles
  rateLimiter : Option BoundedPercentiles
  cacheHits : ℕ
  successes : ℕ
  requestBytesTotal : ℕ
  responseBytesTotal : ℕ
  activeTiers : Finset String
  rateLimitedCount : ℕ
  upstreamErrorCount : ℕ

structure Summary where
  count : ℕ
  avgTotalLatencyMs : ℚ
  avgUpstreamLatencyMs : ℚ
  avgRateLimiterMs : ℚ
  p95RateLimiterMs : ℚ
  cacheHitRatePct : ℚ
  successRatePct : ℚ
  avgRequestSizeBytes : ℚ
  avgResponseSizeBytes : ℚ
  activeTiersCount : ℕ
  rateLimitedCount : ℕ
  upstreamErrorCount : ℕ
  deriving DecidableEq, Repr

namespace StatsAccumulator

def zero : StatsAccumulator := ⟨0, 0, 0, 0, 0, none, none, 0, 0, 0, 0, ∅, 0, 0⟩

/-- `Totals` or `RateLimiter`, made at the first use. -/
def sample (bp : Option BoundedPercentiles) : BoundedPercentiles := bp.getD (newBoundedPercentiles defaultPercentileCap)

def add (a : StatsAccumulator) (e : AnalyticsEntry) : StatsAccumulator :=
  let totalUs := e.totalLatency.tdiv 1000
  let upstreamUs := e.upstreamLatency.tdiv 1000
  let rateLimiterUs := max (totalUs - upstreamUs) 0
  let proxied : Bool := !e.cacheHit && e.responseCode ≠ statusTooManyRequests
  { count := a.count + 1
    totalLatencyUsSum := a.totalLatencyUsSum + totalUs
    upstreamLatencySum := if proxied then a.upstreamLatencySum + upstreamUs else a.upstreamLatencySum
    upstreamSamples := if proxied then a.upstreamSamples + 1 else a.upstreamSamples
    rateLimiterUsSum := a.rateLimiterUsSum + rateLimiterUs
    totals := some ((sample a.totals).add totalUs)
    rateLimiter := some ((sample a.rateLimiter).add rateLimiterUs)
    cacheHits := if e.cacheHit then a.cacheHits + 1 else a.cacheHits
    successes := if 200 ≤ e.responseCode ∧ e.responseCode < 300 then a.successes + 1 else a.successes
    requestBytesTotal := a.requestBytesTotal + e.requestSize
    responseBytesTotal := a.responseBytesTotal + e.responseSize
    activeTiers := insert e.tier a.activeTiers
    rateLimitedCount := if e.responseCode = statusTooManyRequests then a.rateLimitedCount + 1 else a.rateLimitedCount
    upstreamErrorCount := if e.upstreamError then a.upstreamErrorCount + 1 else a.upstreamErrorCount }

/-- `boundedPercentiles.merge` of a sample that may not exist. -/
def mergeSample (bp other : Option BoundedPercentiles) : BoundedPercentiles :=
  match other with
  | none => sample bp
  | some other => (sample bp).merge other

def merge (a other : StatsAccumulator) : StatsAccumulator :=
  if other.count = 0 then a
  else
    { count := a.count + other.count
      totalLatencyUsSum := a.totalLatencyUsSum + other.totalLatencyUsSum
      upstreamLatencySum := a.upstreamLatencySum + other.upstreamLatencySum
      upstreamSamples := a.upstreamSamples + other.upstreamSamples
      rateLimiterUsSum := a.rateLimiterUsSum + other.rateLimiterUsSum
      totals := some (mergeSample a.totals other.totals)
      rateLimiter := some (mergeSample a.rateLimiter other.rateLimiter)
      cacheHits := a.cacheHits + other.cacheHits
      successes := a.successes + other.successes
      requestBytesTotal := a.requestBytesTotal + other.requestBytesTotal
      responseBytesTotal := a.responseBytesTotal + other.responseBytesTotal
      activeTiers := a.activeTiers ∪ other.activeTiers
      rateLimitedCount := a.rateLimitedCount + other.rateLimitedCount
      upstreamErrorCount := a.upstreamErrorCount + other.upstreamErrorCount }

def percentileOf (bp : Option BoundedPercentiles) (p : ℚ) : ℚ := (bp.map fun bp => bp.percentile p).getD 0

def toSummary (a : StatsAccumulator) : Summary :=
  if a.count = 0 then ⟨0, 0, 0, 0, 0, 0, 0, 0, 0, 0, 0, 0⟩
  else
    { count := a.count
      avgTotalLatencyMs := microsecondsToMilliseconds (a.totalLatencyUsSum / a.count)
      avgUpstreamLatencyMs :=
        if 0 < a.upstreamSamples then microsecondsToMilliseconds (a.upstreamLatencySum / a.upstreamSamples) else 0
      avgRateLimiterMs := microsecondsToMilliseconds (a.rateLimiterUsSum / a.count)
      p95RateLimiterMs := microsecondsToMilliseconds (percentileOf a.rateLimiter 95)
      cacheHitRatePct := a.cacheHits / a.count * 100
      successRatePct := a.successes / a.count * 100
      avgRequestSizeBytes := a.requestBytesTotal / a.count
      avgResponseSizeBytes := a.responseBytesTotal / a.count
      activeTiersCount := a.activeTiers.card
      rateLimitedCount := a.rateLimitedCount
      upstreamErrorCount := a.upstreamErrorCount }

end StatsAccumulator

/-! Buckets. -/

inductive GroupBy where
  | routePrefix
  | service
  | edgeId
  | tier
  | method
  deriving DecidableEq, Repr

def GroupBy.field : GroupBy → AnalyticsEntry → String
  | .routePrefix => AnalyticsEntry.routePrefix
  | .service => AnalyticsEntry.service
  | .edgeId => AnalyticsEntry.edgeId
  | .tier => AnalyticsEntry.tier
  | .method => AnalyticsEntry.method

abbrev GroupMap (A : Type) := AList fun _ : String => A

structure BucketAggregation where
  total : StatsAccumulator
  groups : GroupBy → GroupMap StatsAccumulator

def newBucketAggregation : BucketAggregation := ⟨.zero, fun _ => ∅⟩

namespace BucketAggregation

def addGroup (m : GroupMap StatsAccumulator) (key : String) (e : AnalyticsEntry) : GroupMap StatsAccumulator :=
  let key := if key = "" then "unknown" else key
  Groups.upsert m key fun acc => (acc.getD .zero).add e

def add (b : BucketAggregation) (e : AnalyticsEntry) : BucketAggregation where
  total := b.total.add e
  groups g := addGroup (b.groups g) (g.field e) e

end BucketAggregation

structure IntervalAggregation where
  bucketSize : ℤ
  buckets : AList fun _ : ℤ => BucketAggregation

def newIntervalAggregation (bucketSize : ℤ) : IntervalAggregation := ⟨bucketSize, ∅⟩

namespace IntervalAggregation

/-- The keys before which `prune` deletes at the time `now`. -/
def cutoff (now : ℤ) : ℤ := unix (now - defaultHistoryWindow)

def prune (ia : IntervalAggregation) (now : ℤ) : IntervalAggregation :=
  { ia with buckets := (ia.buckets.keys.filter fun k => k < cutoff now).foldl (fun m k => m.erase k) ia.buckets }

def ingest (ia : IntervalAggregation) (ts : ℤ) (e : AnalyticsEntry) : IntervalAggregation :=
  let bucketStart := unix (Time.truncate ts ia.bucketSize)
  let ia := { ia with buckets := Groups.upsert ia.buckets bucketStart fun b => (b.getD newBucketAggregation).add e }
  ia.prune ts

/-- The loop of `buildFilteredSummary`. -/
def ingestAll (ia : IntervalAggregation) (entries : List AnalyticsEntry) : IntervalAggregation :=
  entries.foldl (fun ia e => if e.timestamp = 0 then ia else ia.ingest e.timestamp e) ia

end IntervalAggregation

/-! The snapshot. -/

structure SummaryBucket where
  bucketStart : ℤ
  count : ℕ
  cacheHitCount : ℕ
  rateLimitedCount : ℕ
  upstreamErrorCount : ℕ
  avgTotalLatencyMs : Option ℚ
  p50TotalLatencyMs : Option ℚ
  p90TotalLatencyMs : Option ℚ
  cacheHitRatePct : Option ℚ
  successRatePct : Option ℚ
  deriving DecidableEq, Repr

structure SummaryResponse where
  summary : Summary
  interval : String
  generatedAt : ℤ
  series : List SummaryBucket
  deriving DecidableEq, Repr

/-- What `buildSnapshot` gathers. -/
structure SnapshotAcc where
  total : StatsAccumulator
  groupedAcc : GroupBy → GroupMap StatsAccumulator
  series : List SummaryBucket

def SnapshotAcc.empty : SnapshotAcc := ⟨.zero, fun _ => ∅, []⟩

def mergeGroups (acc values : GroupMap StatsAccumulator) : GroupMap StatsAccumulator :=
  values.entries.foldl (fun acc x => Groups.upsert acc x.1 fun a => (a.getD .zero).merge x.2) acc

def BucketAggregation.point (b : BucketAggregation) (bucketStart : ℤ) : SummaryBucket :=
  let bSummary := b.total.toSummary
  let shown {A : Type} (v : A) : Option A := if 0 < bSummary.count then some v else none
  { bucketStart
    count := bSummary.count
    cacheHitCount := b.total.cacheHits
    rateLimitedCount := bSummary.rateLimitedCount
    upstreamErrorCount := bSummary.upstreamErrorCount
    avgTotalLatencyMs := shown bSummary.avgTotalLatencyMs
    p50TotalLatencyMs := shown (microsecondsToMilliseconds (StatsAccumulator.percentileOf b.total.totals 50))
    p90TotalLatencyMs := shown (microsecondsToMilliseconds (StatsAccumulator.percentileOf b.total.totals 90))
    cacheHitRatePct := shown bSummary.cacheHitRatePct
    successRatePct := shown bSummary.successRatePct }

/-- One turn of the loop. -/
def SnapshotAcc.visit (acc : SnapshotAcc) (interval : IntervalAggregation) (bucketStart : ℤ) : SnapshotAcc :=
  match interval.buckets.lookup (unix bucketStart) with
  | none => { acc with series := acc.series ++ [⟨bucketStart, 0, 0, 0, 0, none, none, none, none, none⟩] }
  | some b =>
    { total := acc.total.merge b.total
      groupedAcc := fun g => mergeGroups (acc.groupedAcc g) (b.groups g)
      series := acc.series ++ [b.point bucketStart] }

/-- The starts of the buckets that are reported, oldest first. -/
def reportedStarts (intervalId : String) (bucketSize now : ℤ) : List ℤ :=
  let window := (intervalRangeWindow intervalId).getD 0
  let window := if window ≤ 0 then hour else window
  let finish := Time.truncate now bucketSize
  let bucketsCount := window.tdiv bucketSize
  let start := finish - (bucketsCount - 1) * bucketSize
  (List.range bucketsCount.toNat).map fun i : ℕ => start + i * bucketSize

/-- A map of accumulators as a map of summaries. -/
def summarize (m : GroupMap StatsAccumulator) : GroupMap Summary where
  entries := m.entries.map fun x => ⟨x.1, x.2.toSummary⟩
  nodupKeys := by
    have h := m.nodupKeys
    rw [List.NodupKeys, List.keys] at h ⊢
    simpa [Function.comp_def] using h

/-- The loop of `buildSnapshot`. -/
def snapshotLoop (intervalId : String) (interval : IntervalAggregation) (now : ℤ) : SnapshotAcc :=
  (reportedStarts intervalId interval.bucketSize now).foldl (fun acc t => acc.visit interval t) SnapshotAcc.empty

def buildSnapshot (intervalId : String) (interval : IntervalAggregation) (now : ℤ) : SummaryResponse × (GroupBy → GroupMap Summary) :=
  let acc := snapshotLoop intervalId interval now
  (⟨acc.total.toSummary, intervalId, now, acc.series⟩, fun g => summarize (acc.groupedAcc g))

def buildFilteredSummary (entries : List AnalyticsEntry) (intervalId : String) (reference : ℤ) : SummaryResponse :=
  let bucketSize := (supportedIntervals intervalId).getD 0
  (buildSnapshot intervalId ((newIntervalAggregation bucketSize).ingestAll entries) reference).1

/-! What the snapshot counts. -/

inductive Tallied where
  | requests
  | cacheHits
  | rateLimited
  | upstreamErrors
  deriving DecidableEq, Repr

namespace Tallied

/-- Whether an event counts. -/
def counts : Tallied → AnalyticsEntry → Bool
  | requests, _ => true
  | cacheHits, e => e.cacheHit
  | rateLimited, e => e.responseCode = statusTooManyRequests
  | upstreamErrors, e => e.upstreamError

/-- A summary gives its cache hits as a rate. -/
def ofSummary (s : Summary) : Tallied → ℚ
  | requests => s.count
  | cacheHits => s.cacheHitRatePct / 100 * s.count
  | rateLimited => s.rateLimitedCount
  | upstreamErrors => s.upstreamErrorCount

def ofPoint (p : SummaryBucket) : Tallied → ℕ
  | requests => p.count
  | cacheHits => p.cacheHitCount
  | rateLimited => p.rateLimitedCount
  | upstreamErrors => p.upstreamErrorCount

end Tallied

end Gate
