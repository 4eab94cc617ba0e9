import Gate.Spec.Limiter
import Gate.Spec.Redis

/-! The central limiter (`packages/limiter/redis_counter.go`): each decision is one script on a counter
that all edges share. Times are whole milliseconds. -/

namespace Gate

/-- `counterLua`: whether the cost is admitted, and what is used. -/
def counterLua (r : Redis) (now : ℤ) (key : String) (cost limit ttl : ℤ) : (Bool × ℤ) × Redis :=
  let (used, r) := r.incrBy now key cost
  let r := if used = cost then r.pexpire now key ttl else r
  if limit < used then ((false, used - cost), (r.incrBy now key (-cost)).2) else ((true, used), r)

namespace RedisCounter

/-- A call of `Allow`: the request, its edge's clock, and the clock of Redis when the script runs. -/
structure Call where
  req : Request
  clock : ℤ
  now : ℤ

namespace Call

def cost (c : Call) : ℤ := max c.req.cost 1

def window (c : Call) : ℤ := max c.req.window second

def id (c : Call) : ℤ := c.clock.tdiv (milliseconds c.window)

def key (c : Call) : String := "counter:\x7b" ++ stateKey c.req ++ "\x7d:" ++ toString c.id

end Call

def allow (r : Redis) (c : Call) : Decision × Redis :=
  let (res, r) := counterLua r c.now c.key c.cost c.req.limit (2 * milliseconds c.window)
  ({ Decision.zero with
      allowed := res.1
      limit := c.req.limit
      remaining := max 0 (c.req.limit - res.2)
      resetAt := windowEnd c.window c.clock
      window := c.id }, r)

/-- The calls of all edges, in the order in which Redis runs their scripts. -/
def run (r : Redis) : List Call → List (Call × Decision)
  | [] => []
  | c :: calls => (c, (allow r c).1) :: run (allow r c).2 calls

/-- The cost admitted under a key. -/
def admitted (key : String) (log : List (Call × Decision)) : ℤ :=
  (log.map fun x => if x.1.key = key ∧ x.2.allowed then x.1.cost else 0).sum

end RedisCounter

end Gate
