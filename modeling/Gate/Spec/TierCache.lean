import Gate.Lib.Run
import Gate.Spec.Ledger

/-! An edge's tier cache (`packages/edge/tiers.go`) and the hub's changes to the tiers it caches.
Changes of a key are numbered, and a tier carries the number of the change that made it; the code
has no such numbers, they say how old a tier is. Keys are `tierKey`s. -/

namespace Gate

def tierTTL : ℤ := 3600 * second
def unknownKeyTTL : ℤ := 30 * second

/-- How the edge got a tier: pushed by the hub, or read from the hub's store for a resolve. -/
inductive TierSource where
  | pushed
  | read
  deriving DecidableEq, Repr

structure Stamped where
  tier : String
  change : ℕ
  source : TierSource
  deriving DecidableEq, Repr

structure TierEntry where
  value : Stamped
  gen : ℕ
  expires : ℤ
  deriving DecidableEq, Repr

/-- A call of the flight group: the goroutine that asks the hub. -/
inductive TierFlight where
  | started
  | resolving (gen : ℕ)
  | answered (gen : ℕ) (v : Stamped)
  | stored (v : Stamped)
  | failed
  deriving DecidableEq, Repr

/-- What a flight was told. -/
def TierFlight.answer? : TierFlight → Option Stamped
  | .answered _ v => some v
  | .stored v => some v
  | _ => none

inductive GetPhase where
  /-- the entry, if there is a fresh one -/
  | looked (entry : Option TierEntry)
  /-- on its key's flight -/
  | waiting
  | returned (v : Stamped)
  | failed
  deriving DecidableEq, Repr

/-- A call of `Get`. When it started, `since` was the last change of its key that had been applied,
`latest` the last one made. -/
structure TierGet where
  key : String
  since : ℕ
  latest : ℕ
  phase : GetPhase
  deriving DecidableEq, Repr

structure TierWorld where
  now : ℤ
  /-- the hub's tier store -/
  hub : String → String
  changes : String → ℕ
  /-- changes on their way to the edge -/
  pushes : List (String × Stamped)
  applied : String → ℕ
  cache : String → Option TierEntry
  gen : ℕ
  flights : String → Option TierFlight
  gets : List TierGet

def TierWorld.start (now : ℤ) (hub : String → String) : TierWorld where
  now := now
  hub := hub
  changes _ := 0
  pushes := []
  applied _ := 0
  cache _ := none
  gen := 0
  flights _ := none
  gets := []

inductive TierAct where
  /-- the hub's store changes, and the change is pushed -/
  | change (key tier : String)
  /-- `Set` applies the next pushed change -/
  | push
  | reset
  | tick (d : ℕ)
  | evict (key : String)
  /-- a `Get` starts and looks into the cache -/
  | get (key : String)
  /-- it compares generations, and returns the entry or joins the key's flight -/
  | check (i : ℕ)
  /-- the flight's goroutine loads the generation and asks the hub -/
  | resolve (key : String)
  /-- the hub reads its store -/
  | read (key : String)
  | fail (key : String)
  | store (key : String)
  /-- the flight ends, and those that wait for it have its result -/
  | land (key : String)
  | cancel (i : ℕ)
  deriving DecidableEq, Repr

namespace TierWorld

/-- `TierCache.store`. -/
def store (w : TierWorld) (key : String) (v : Stamped) (gen : ℕ) : TierWorld :=
  let ttl := if v.tier = "" then unknownKeyTTL else tierTTL
  { w with cache := Function.update w.cache key (some ⟨v, gen, w.now + ttl⟩) }

/-- The entry that `cache.get` finds fresh. -/
def fresh (w : TierWorld) (key : String) : Option TierEntry := (w.cache key).filter fun e => w.now < e.expires

def join (w : TierWorld) (i : ℕ) (g : TierGet) : TierWorld :=
  { w with
    flights := Function.update w.flights g.key (some ((w.flights g.key).getD .started))
    gets := w.gets.set i { g with phase := .waiting } }

/-- Those that wait for the key's flight. -/
def finish (w : TierWorld) (key : String) (phase : GetPhase) : TierWorld :=
  { w with
    flights := Function.update w.flights key none
    gets := w.gets.map fun g => if g.key = key ∧ g.phase = .waiting then { g with phase := phase } else g }

def step (w : TierWorld) : TierAct → Option TierWorld
  | .change key tier =>
    let n := w.changes key + 1
    some { w with
      hub := Function.update w.hub key tier
      changes := Function.update w.changes key n
      pushes := w.pushes ++ [(key, ⟨tier, n, .pushed⟩)] }
  | .push =>
    match w.pushes with
    | [] => none
    | (key, v) :: rest =>
      some { w.store key v w.gen with pushes := rest, applied := Function.update w.applied key v.change }
  | .reset => some { w with gen := w.gen + 1 }
  | .tick d => some { w with now := w.now + d }
  | .evict key => some { w with cache := Function.update w.cache key none }
  | .get key =>
    some { w with gets := w.gets ++ [⟨key, w.applied key, w.changes key, .looked (w.fresh key)⟩] }
  | .check i =>
    match w.gets[i]? with
    | some ⟨key, since, latest, .looked (some e)⟩ =>
      if e.gen = w.gen then some { w with gets := w.gets.set i ⟨key, since, latest, .returned e.value⟩ }
      else some (w.join i ⟨key, since, latest, .looked (some e)⟩)
    | some ⟨key, since, latest, .looked none⟩ => some (w.join i ⟨key, since, latest, .looked none⟩)
    | _ => none
  | .resolve key =>
    match w.flights key with
    | some .started => some { w with flights := Function.update w.flights key (some (.resolving w.gen)) }
    | _ => none
  | .read key =>
    match w.flights key with
    | some (.resolving gen) => some { w with
        flights := Function.update w.flights key (some (.answered gen ⟨w.hub key, w.changes key, .read⟩)) }
    | _ => none
  | .fail key =>
    match w.flights key with
    | some (.resolving _) => some { w with flights := Function.update w.flights key (some .failed) }
    | _ => none
  | .store key =>
    match w.flights key with
    | some (.answered gen v) =>
      some { w.store key v gen with flights := Function.update w.flights key (some (.stored v)) }
    | _ => none
  | .land key =>
    match w.flights key with
    | some (.stored v) => some (w.finish key (.returned v))
    | some .failed => some (w.finish key .failed)
    | _ => none
  | .cancel i =>
    match w.gets[i]? with
    | some ⟨key, since, latest, .waiting⟩ => some { w with gets := w.gets.set i ⟨key, since, latest, .failed⟩ }
    | _ => none

end TierWorld

/-- The call did not return what the hub had read before a change that was applied when it
started, and was the last one then. -/
def TierGet.Sticks (g : TierGet) : Prop :=
  ∀ v, g.phase = .returned v → g.since = g.latest → ¬ (v.source = .read ∧ v.change < g.since)

end Gate
