import Gate.Lib.Run
import Gate.Spec.Ledger

/-! The hub's cache of key tiers and owners (`packages/hub/tier_cache.go`). What is read from the
store carries where and when it was read: the record, how often that had been written, and the
time. The code has none of these, they say how old a value is. -/

namespace Gate

/-- A key's record in the tier store: a service's prefix and the key. -/
structure KeyName where
  pfx : String
  apiKey : String
  deriving DecidableEq, Repr

/-- Two names can have one cache key, if they have the separator in them. -/
def cacheKey (n : KeyName) : String := n.pfx ++ "\x00" ++ n.apiKey

/-- What is read of a record: `GetTier`'s answer or `GetOwner`'s. -/
inductive TierField where
  | tier
  | owner
  deriving DecidableEq, Repr

structure Reading where
  value : String
  name : KeyName
  change : ℕ
  time : ℤ
  deriving DecidableEq, Repr

/-- `none` stands for the zero value: an empty tier, `hasOwner` false. -/
structure CachedTier where
  tier : Option Reading
  owner : Option Reading
  time : ℤ
  deriving DecidableEq, Repr

namespace CachedTier

def zero : CachedTier := ⟨none, none, 0⟩

/-- The field, as the two methods look for it: a tier must not be empty. -/
def get (e : CachedTier) : TierField → Option Reading
  | .tier => e.tier.filter fun r => r.value ≠ ""
  | .owner => e.owner

/-- The update that `store1` is passed. -/
def put (e : CachedTier) (f : TierField) (r : Reading) : CachedTier :=
  match f with
  | .tier => { e with tier := some r }
  | .owner => { e with owner := some r }

end CachedTier

structure CachedTiers where
  /-- `m`, as its entries -/
  entries : List (String × CachedTier)
  gen : ℕ
  deriving DecidableEq, Repr

namespace CachedTiers

def new : CachedTiers := ⟨[], 0⟩

def find (c : CachedTiers) (k : String) : Option CachedTier := (c.entries.find? fun p => p.1 = k).map Prod.snd

def delete (c : CachedTiers) (k : String) : CachedTiers := { c with entries := c.entries.filter fun p => p.1 ≠ k }

def set (c : CachedTiers) (k : String) (e : CachedTier) : CachedTiers :=
  { c with entries := (c.entries.filter fun p => p.1 ≠ k) ++ [(k, e)] }

/-- The fresh entry of a key, if there is one. -/
def lookup (c : CachedTiers) (ttl now : ℤ) (k : String) : Option CachedTier := (c.find k).filter fun e => now - e.time < ttl

/-- What `store1` updates: the key's entry, or an empty one if it is too old. -/
def toUpdate (c : CachedTiers) (ttl now : ℤ) (k : String) : CachedTier := (c.lookup ttl now k).getD .zero

/-- `store1`, with its clock readings at `now`; a full cache is emptied first. -/
def store1 (c : CachedTiers) (max : ℕ) (ttl now : ℤ) (k : String) (gen : ℕ) (f : TierField) (r : Reading) : CachedTiers :=
  if c.gen ≠ gen then c
  else
    let c := if max ≤ c.entries.length then { c with entries := [] } else c
    c.set k { (c.toUpdate ttl now k).put f r with time := now }

end CachedTiers

/-- Unknown keys are not cached. -/
def cacheable (f : TierField) (r : Reading) : Bool := f = .owner || r.value ≠ ""

/-! Calls made one after the other. -/

/-- A call of `GetTier` or `GetOwner` at a time, and what the store would answer: `none` is an error. -/
structure TierQuery where
  now : ℤ
  field : TierField
  name : KeyName
  answer : Option String
  deriving DecidableEq, Repr

/-- What the call reads from the store, if it gets there. -/
def TierQuery.reading (q : TierQuery) (value : String) : Reading := ⟨value, q.name, 0, q.now⟩

/-- `GetTier` and `GetOwner`: the answer, and the cache after it. -/
def CachedTiers.call (c : CachedTiers) (max : ℕ) (ttl : ℤ) (q : TierQuery) : Option Reading × CachedTiers :=
  match (c.lookup ttl q.now (cacheKey q.name)).bind fun e => e.get q.field with
  | some r => (some r, c)
  | none =>
    match q.answer with
    | none => (none, c)
    | some v =>
      let r := q.reading v
      (some r, if cacheable q.field r then c.store1 max ttl q.now (cacheKey q.name) c.gen q.field r else c)

/-- The cache and the calls made so far, each with its answer. -/
structure TierCalls where
  cache : CachedTiers
  calls : List (TierQuery × Option Reading)
  deriving DecidableEq, Repr

def TierCalls.new : TierCalls := ⟨.new, []⟩

def TierCalls.step (max : ℕ) (ttl : ℤ) (w : TierCalls) (q : TierQuery) : Option TierCalls :=
  let (a, c) := w.cache.call max ttl q
  some ⟨c, w.calls ++ [(q, a)]⟩

/-- What is stored joins no value of an earlier time: `store1` would make that as new as its own. -/
def TierCalls.JoinsNoOlder (max : ℕ) (ttl : ℤ) (w : TierCalls) (q : TierQuery) : Prop :=
  ∀ e ∈ w.cache.lookup ttl q.now (cacheKey q.name), e.get q.field = none →
    (∃ v ∈ q.answer, cacheable q.field (q.reading v)) → w.cache.entries.length < max →
      (e.get .tier).isSome ∨ (e.get .owner).isSome → e.time = q.now

instance (max : ℕ) (ttl : ℤ) (w : TierCalls) (q : TierQuery) : Decidable (w.JoinsNoOlder max ttl q) :=
  inferInstanceAs (Decidable (∀ e ∈ _, _))

/-! Calls and invalidations at once. A step is a lock section, a load or an increment of the
generation, or a read of the store. -/

inductive LookPhase where
  | begun
  | missed
  | loaded (gen : ℕ)
  | read (gen : ℕ) (r : Reading)
  | returned (r : Reading)
  | failed
  deriving DecidableEq, Repr

inductive InvalidatePhase where
  | begun
  | bumped
  | completed
  deriving DecidableEq, Repr

/-- A call of `Invalidate`. When it began, the records had been written `written` times. -/
structure Invalidation where
  name : KeyName
  written : TierField → KeyName → ℕ
  phase : InvalidatePhase

/-- A call of `GetTier` or `GetOwner`. When it began, the invalidations `past` had completed. -/
structure Lookup where
  field : TierField
  name : KeyName
  past : List Invalidation
  phase : LookPhase

structure HubTiers where
  now : ℤ
  store : TierField → KeyName → String
  written : TierField → KeyName → ℕ
  cache : CachedTiers
  lookups : List Lookup
  invalidations : List Invalidation

def HubTiers.start (now : ℤ) (store : TierField → KeyName → String) : HubTiers where
  now := now
  store := store
  written _ _ := 0
  cache := .new
  lookups := []
  invalidations := []

inductive HubTierAct where
  | tick (d : ℕ)
  /-- the store is written, by anyone -/
  | write (f : TierField) (name : KeyName) (value : String)
  | get (f : TierField) (name : KeyName)
  /-- the read-locked section of `lookup` -/
  | look (i : ℕ)
  | load (i : ℕ)
  /-- the store answers -/
  | read (i : ℕ)
  | fail (i : ℕ)
  /-- the locked section of `store1`, or nothing if there is nothing to cache -/
  | store (i : ℕ)
  | invalidate (name : KeyName)
  | bump (j : ℕ)
  /-- the locked section of `Invalidate` -/
  | delete (j : ℕ)
  deriving DecidableEq, Repr

namespace HubTiers

variable (max : ℕ) (ttl : ℤ)

/-- The invalidations that have completed. -/
def completed (w : HubTiers) : List Invalidation := w.invalidations.filter fun i => i.phase = .completed

def setLookup (w : HubTiers) (i : ℕ) (l : Lookup) (phase : LookPhase) : HubTiers :=
  { w with lookups := w.lookups.set i { l with phase := phase } }

def step (w : HubTiers) : HubTierAct → Option HubTiers
  | .tick d => some { w with now := w.now + d }
  | .write f name value => some { w with
      store := fun g n => if g = f ∧ n = name then value else w.store g n
      written := fun g n => if g = f ∧ n = name then w.written g n + 1 else w.written g n }
  | .get f name => some { w with lookups := w.lookups ++ [⟨f, name, w.completed, .begun⟩] }
  | .look i => do
    let l ← w.lookups[i]?
    if l.phase = .begun then
      match (w.cache.lookup ttl w.now (cacheKey l.name)).bind fun e => e.get l.field with
      | some r => return w.setLookup i l (.returned r)
      | none => return w.setLookup i l .missed
    else none
  | .load i => do
    let l ← w.lookups[i]?
    if l.phase = .missed then return w.setLookup i l (.loaded w.cache.gen) else none
  | .read i => do
    let l ← w.lookups[i]?
    match l.phase with
    | .loaded gen => return w.setLookup i l (.read gen ⟨w.store l.field l.name, l.name, w.written l.field l.name, w.now⟩)
    | _ => none
  | .fail i => do
    let l ← w.lookups[i]?
    match l.phase with
    | .loaded _ => return w.setLookup i l .failed
    | _ => none
  | .store i => do
    let l ← w.lookups[i]?
    match l.phase with
    | .read gen r =>
      let w := if cacheable l.field r then
          { w with cache := w.cache.store1 max ttl w.now (cacheKey l.name) gen l.field r } else w
      return w.setLookup i l (.returned r)
    | _ => none
  | .invalidate name => some { w with invalidations := w.invalidations ++ [⟨name, w.written, .begun⟩] }
  | .bump j => do
    let v ← w.invalidations[j]?
    if v.phase = .begun then return { w with
      cache := { w.cache with gen := w.cache.gen + 1 }
      invalidations := w.invalidations.set j { v with phase := .bumped } } else none
  | .delete j => do
    let v ← w.invalidations[j]?
    if v.phase = .bumped then return { w with
      cache := w.cache.delete (cacheKey v.name)
      invalidations := w.invalidations.set j { v with phase := .completed } } else none

end HubTiers

/-- The value had not been overwritten when the invalidation began. -/
def Reading.Outlasts (r : Reading) (f : TierField) (i : Invalidation) : Prop := i.written f r.name ≤ r.change

end Gate
