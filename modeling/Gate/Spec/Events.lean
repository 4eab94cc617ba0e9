import Gate.Spec.Ledger

/-! The events of the analytics service (`packages/common/types/analytics.go`), and the operations of
Go's `time.Time` that it buckets them with. A time is a number of nanoseconds since Go's zero time,
the beginning of the year 1. -/

namespace Gate

structure AnalyticsEntry where
  routePrefix : String
  service : String
  edgeId : String
  timestamp : ℤ
  method : String
  tier : String
  totalLatency : ℤ
  upstreamLatency : ℤ
  cacheHit : Bool
  requestSize : ℕ
  responseSize : ℕ
  responseCode : ℕ
  upstreamError : Bool
  deriving DecidableEq, Repr

def statusTooManyRequests : ℕ := 429

namespace Time

def minute : ℤ := 60 * second

def hour : ℤ := 60 * minute

/-- `Truncate` rounds down to a multiple of `d` since the zero time. -/
def truncate (t d : ℤ) : ℤ := if d ≤ 0 then t else t - t % d

/-- `Unix` counts the whole seconds since 1970. -/
def unix (t : ℤ) : ℤ := t / second - 62135596800

end Time

end Gate
