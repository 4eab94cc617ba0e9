import Mathlib.Data.List.AList
import Gate.Lib.Run

/-! The edge's in-process cache (`packages/edge/ttlcache.go`). Times are nanoseconds. A lock is held
through each call, so a call is a function of the cache and of the clock reading it takes. -/

namespace Gate

def cacheShards : ℕ := 32

structure CacheEntry (V : Type) where
  value : V
  cost : ℤ
  storedAt : ℤ
  expires : ℤ
  deriving Repr

/-- The shard's map. -/
abbrev CacheMap (V : Type) := AList fun _ : String => CacheEntry V

structure CacheShard (V : Type) where
  entries : CacheMap V
  cost : ℤ

structure TtlCache (V : Type) where
  shards : Fin cacheShards → CacheShard V
  /-- the budget of a shard -/
  shardCost : ℤ

/-- The order in which `range` visits a map: any permutation of its entries. -/
structure VisitOrder (A : Type) where
  visit : List A → List A
  perm : ∀ l, (visit l).Perm l

abbrev CacheOrder (V : Type) := VisitOrder (Sigma fun _ : String => CacheEntry V)

/-- `fnv.New32a`. -/
def fnv32a (key : String) : UInt32 :=
  key.toUTF8.data.foldl (fun h b => (h ^^^ b.toUInt32) * 16777619) 2166136261

def shardOf (key : String) : Fin cacheShards := ⟨(fnv32a key).toNat % cacheShards, Nat.mod_lt _ (by decide)⟩

section

variable {V : Type}

def newTTLCache (V : Type) (budget : ℤ) : TtlCache V where
  shards _ := ⟨∅, 0⟩
  shardCost := max (budget.tdiv cacheShards) 1

def TtlCache.shard (c : TtlCache V) (key : String) : CacheShard V := c.shards (shardOf key)

/-- The value, when it was stored, and whether it is still fresh. -/
def TtlCache.get (c : TtlCache V) (key : String) (now : ℤ) : Option (V × ℤ × Bool) :=
  ((c.shard key).entries.lookup key).map fun e => (e.value, e.storedAt, now < e.expires)

/-- The loop of `evictOne`: an expired entry of the sample, or else the first one. -/
def sampleVictim (now : ℤ) : List (Sigma fun _ : String => CacheEntry V) → String → ℕ → String
  | [], victim, _ => victim
  | ⟨k, e⟩ :: rest, victim, n =>
    if e.expires ≤ now then k
    else
      let victim := if victim = "" then k else victim
      if n + 1 = 8 then victim else sampleVictim now rest victim (n + 1)

def costOf (e : Option (CacheEntry V)) : ℤ := (e.map CacheEntry.cost).getD 0

namespace CacheShard

def remove (s : CacheShard V) (key : String) : CacheShard V where
  entries := s.entries.erase key
  cost := s.cost - costOf (s.entries.lookup key)

def evictOne (s : CacheShard V) (now : ℤ) (ord : CacheOrder V) : CacheShard V :=
  s.remove (sampleVictim now (ord.visit s.entries.entries) "" 0)

/-- The loop of `set`, for as many turns as there are entries: each turn removes one. -/
def makeRoom (budget cost now : ℤ) (ord : ℕ → CacheOrder V) : ℕ → CacheShard V → CacheShard V
  | 0, s => s
  | n + 1, s =>
    if budget < s.cost + cost ∧ s.entries.entries ≠ [] then makeRoom budget cost now ord n (s.evictOne now (ord n)) else s

/-- The shard just before `set` stores its entry. The entry that is replaced no longer counts, but is
still in the map. -/
def cleared (s : CacheShard V) (budget : ℤ) (key : String) (cost now : ℤ) (ord : ℕ → CacheOrder V) : CacheShard V :=
  makeRoom budget cost now ord s.entries.entries.length { s with cost := s.cost - costOf (s.entries.lookup key) }

def set (s : CacheShard V) (budget : ℤ) (key : String) (v : V) (ttl cost now : ℤ) (ord : ℕ → CacheOrder V) : CacheShard V :=
  let s := s.cleared budget key cost now ord
  { entries := s.entries.insert key ⟨v, cost, now, now + ttl⟩, cost := s.cost + cost }

/-- One turn of the loop of `deleteFunc`. -/
def deleteIf (del : String → Bool) (s : CacheShard V) (x : Sigma fun _ : String => CacheEntry V) : CacheShard V :=
  if del x.1 then { entries := s.entries.erase x.1, cost := s.cost - x.2.cost } else s

def deleteFunc (s : CacheShard V) (del : String → Bool) (ord : CacheOrder V) : CacheShard V :=
  (ord.visit s.entries.entries).foldl (deleteIf del) s

end CacheShard

inductive CacheCall (V : Type) where
  | get (key : String) (now : ℤ)
  | set (key : String) (v : V) (ttl cost now : ℤ) (ord : ℕ → CacheOrder V)
  | deleteFunc (del : String → Bool) (ord : Fin cacheShards → CacheOrder V)

namespace TtlCache

/-- `set`: what costs more than a whole shard is not cached. -/
def set (c : TtlCache V) (key : String) (v : V) (ttl cost now : ℤ) (ord : ℕ → CacheOrder V) : TtlCache V :=
  let cost := max cost 1
  if c.shardCost < cost then c
  else { c with shards := Function.update c.shards (shardOf key) ((c.shard key).set c.shardCost key v ttl cost now ord) }

def deleteFunc (c : TtlCache V) (del : String → Bool) (ord : Fin cacheShards → CacheOrder V) : TtlCache V :=
  { c with shards := fun i => (c.shards i).deleteFunc del (ord i) }

def exec (c : TtlCache V) : CacheCall V → TtlCache V
  | .get _ _ => c
  | .set key v ttl cost now ord => c.set key v ttl cost now ord
  | .deleteFunc del ord => c.deleteFunc del ord

end TtlCache

/-- What a map's entries cost together. -/
def sumCosts (m : CacheMap V) : ℤ := (m.entries.map fun x => x.2.cost).sum

/-- The books of a shard are right, and within the budget. -/
def CacheShard.Exact (budget : ℤ) (s : CacheShard V) : Prop := s.cost = sumCosts s.entries ∧ s.cost ≤ budget

def TtlCache.Exact (c : TtlCache V) : Prop := ∀ i, (c.shards i).Exact c.shardCost

/-- A call that replaces an entry does not evict that very entry to make room. -/
def TtlCache.Spares (c : TtlCache V) : CacheCall V → Prop
  | .set key _ _ cost now ord => max cost 1 ≤ c.shardCost → key ∈ (c.shard key).entries →
      key ∈ ((c.shard key).cleared c.shardCost key (max cost 1) now ord).entries
  | .get _ _ | .deleteFunc _ _ => True

end

end Gate
