import Gate.Spec.Control

/-! The edges that watch one hub (`Watch` and `deliver` of `packages/hub/controlplane.go`). The hub
is one of those on the channel, and what it publishes arrives. A step is what one goroutine does
between two points where another can come in: the relay's `deliver` takes the lock once and offers
an event to the watchers one by one. -/

namespace Gate

def watcherBuffer : ℕ := 256

inductive ControlEvent where
  | config (cfg : Types.GatewayConfig) (resetTiers : Bool)
  | tier (group apiKey tierID : String)

def ControlEvent.config? : ControlEvent → Option Types.GatewayConfig
  | .config cfg _ => some cfg
  | .tier _ _ _ => none

inductive StreamEnd where
  | unavailable
  /-- the edge went away: its context is done, or a send failed -/
  | gone
  deriving DecidableEq, Repr

/-- Where a call of `Watch` is. -/
inductive WatchPhase where
  | registered
  | snapped (ev : ControlEvent)
  /-- at the `select` -/
  | waiting
  | holding (ev : ControlEvent)
  | ended (why : StreamEnd)

def WatchPhase.isEnded : WatchPhase → Bool
  | .ended _ => true
  | _ => false

/-- What has been taken and not yet sent. -/
def WatchPhase.held : WatchPhase → List ControlEvent
  | .snapped ev | .holding ev => [ev]
  | _ => []

structure Watcher where
  phase : WatchPhase
  /-- the channel's buffer -/
  queue : List ControlEvent
  closed : Bool
  /-- is it in `c.watchers`? -/
  listed : Bool
  /-- what the edge has received -/
  sent : List ControlEvent

namespace Watcher

def new : Watcher := ⟨.registered, [], false, true, []⟩

/-- All that the edge has received or will receive as things are. -/
def stream (x : Watcher) : List ControlEvent := x.sent ++ x.phase.held ++ x.queue

/-- `deliver`'s `select`: a watcher that is too far behind is dropped. -/
def offer (x : Watcher) (ev : ControlEvent) : Watcher :=
  if x.queue.length < watcherBuffer then { x with queue := x.queue ++ [ev] }
  else { x with closed := true, listed := false }

end Watcher

/-- The config in the last of the events that has one. -/
def lastConfig (evs : List ControlEvent) : Option Types.GatewayConfig := (evs.filterMap ControlEvent.config?).getLast?

/-- Where the relay's `deliver` is. -/
inductive RelayPhase (ι : Type) where
  | idle
  | received (m : ControlMessage ι)
  /-- the config is active, and is to be read for the watchers -/
  | adopted
  | made (ev : ControlEvent)
  /-- the lock is held, and some watchers are still to be offered the event -/
  | offering (ev : ControlEvent) (rest : List ℕ)

def RelayPhase.locked {ι : Type} : RelayPhase ι → Bool
  | .offering _ _ => true
  | _ => false

structure WatchHub (ι : Type) where
  active : Types.GatewayConfig
  reloads : List ReloadPhase
  /-- published messages that the relay has still to receive -/
  channel : List (ControlMessage ι)
  relay : RelayPhase ι
  watchers : List Watcher

def WatchHub.start {ι : Type} (cfg : Types.GatewayConfig) : WatchHub ι := ⟨cfg, [], [], .idle, []⟩

inductive WatchAct (ι : Type) where
  | reload (mode : ReloadMode) (f : Config.File)
  | snapshot (i : ℕ)
  | publish (i : ℕ)
  | publishTier (group apiKey tierID : String)
  /-- another hub publishes -/
  | arrive (m : ControlMessage ι)
  | receive
  | adopt
  | make
  | lock
  | offer (i : ℕ)
  | unlock
  | connect
  | snap (i : ℕ)
  | sendFirst (i : ℕ)
  | dequeue (i : ℕ)
  | send (i : ℕ)
  | hangUp (i : ℕ)
  /-- the deferred removal -/
  | leave (i : ℕ)

/-- A step of the watcher's own, other than that its edge goes away. -/
def WatchAct.isOf {ι : Type} (i : ℕ) : WatchAct ι → Bool
  | .snap j | .sendFirst j | .dequeue j | .send j => i = j
  | _ => false

namespace WatchHub

variable {ι : Type} [DecidableEq ι]

def setWatcher (w : WatchHub ι) (i : ℕ) (x : Watcher) : WatchHub ι := { w with watchers := w.watchers.set i x }

/-- The watchers in the map. -/
def listed (w : WatchHub ι) : List ℕ :=
  (List.range w.watchers.length).filter fun i => (w.watchers[i]?).any fun x => x.listed

/-- The start of `deliver`, up to the snapshot: a config of another hub that is rejected goes no further. -/
def begin (lib : Library) (h : ι) (w : WatchHub ι) (m : ControlMessage ι) : WatchHub ι :=
  match m.body with
  | .tier group apiKey tierID => { w with relay := .made (.tier group apiKey tierID) }
  | .config cfg =>
    if m.origin = h then { w with relay := .adopted }
    else match reloadFromPayload lib cfg with
      | .ok next => { w with active := next, relay := .adopted }
      | .error _ => { w with relay := .idle }

/-- What a watcher's own step makes of it; `active` is the hub's config. -/
def watch (active : Types.GatewayConfig) (x : Watcher) : WatchAct ι → Option Watcher
  | .snap _ => match x.phase with
    | .registered => some { x with phase := .snapped (.config active true) }
    | _ => none
  | .sendFirst _ => match x.phase with
    | .snapped ev => some { x with phase := .waiting, sent := x.sent ++ [ev] }
    | _ => none
  | .dequeue _ => match x.phase, x.queue with
    | .waiting, ev :: rest => some { x with phase := .holding ev, queue := rest }
    | .waiting, [] => if x.closed then some { x with phase := .ended .unavailable } else none
    | _, _ => none
  | .send _ => match x.phase with
    | .holding ev => some { x with phase := .waiting, sent := x.sent ++ [ev] }
    | _ => none
  | .hangUp _ => match x.phase with
    | .registered | .ended _ => none
    | _ => some { x with phase := .ended .gone }
  | .leave _ => match x.phase with
    | .ended _ => some { x with listed := false }
    | _ => none
  | _ => none

/-- A step of a watcher's. -/
def watchStep (w : WatchHub ι) (i : ℕ) (act : WatchAct ι) : Option (WatchHub ι) := do
  let x ← w.watchers[i]?
  let x ← watch w.active x act
  return w.setWatcher i x

def step (lib : Library) (h : ι) (w : WatchHub ι) : WatchAct ι → Option (WatchHub ι)
  | .reload mode f => do
    let cfg ← reloadTarget lib mode f
    return { w with active := cfg, reloads := w.reloads ++ [.applied] }
  | .snapshot i => match w.reloads[i]? with
    | some .applied => some { w with reloads := w.reloads.set i (.read w.active) }
    | _ => none
  | .publish i => match w.reloads[i]? with
    | some (.read cfg) => some { w with reloads := w.reloads.eraseIdx i, channel := w.channel ++ [⟨h, .config cfg⟩] }
    | _ => none
  | .publishTier group apiKey tierID => some { w with channel := w.channel ++ [⟨h, .tier group apiKey tierID⟩] }
  | .arrive m => if m.origin = h then none else some { w with channel := w.channel ++ [m] }
  | .receive => match w.relay, w.channel with
    | .idle, m :: rest => some { w with relay := .received m, channel := rest }
    | _, _ => none
  | .adopt => match w.relay with
    | .received m => some (w.begin lib h m)
    | _ => none
  | .make => match w.relay with
    | .adopted => some { w with relay := .made (.config w.active false) }
    | _ => none
  | .lock => match w.relay with
    | .made ev => some { w with relay := .offering ev w.listed }
    | _ => none
  | .offer i => match w.relay, w.watchers[i]? with
    | .offering ev rest, some x =>
      if i ∈ rest then some { w.setWatcher i (x.offer ev) with relay := .offering ev (rest.erase i) } else none
    | _, _ => none
  | .unlock => match w.relay with
    | .offering _ [] => some { w with relay := .idle }
    | _ => none
  | .connect => if w.relay.locked then none else some { w with watchers := w.watchers ++ [.new] }
  | .leave i => if w.relay.locked then none else w.watchStep i (.leave i)
  | .snap i => w.watchStep i (.snap i)
  | .sendFirst i => w.watchStep i (.sendFirst i)
  | .dequeue i => w.watchStep i (.dequeue i)
  | .send i => w.watchStep i (.send i)
  | .hangUp i => w.watchStep i (.hangUp i)

/-- Every reload was published, and every message delivered. -/
def Quiet (w : WatchHub ι) : Prop := w.reloads = [] ∧ w.channel = [] ∧ w.relay = .idle

end WatchHub

/-- The watcher's own steps lead to the end of its stream, with `Unavailable`. -/
def EndsUnavailable {ι : Type} [DecidableEq ι] (lib : Library) (h : ι) (w : WatchHub ι) (i : ℕ) : Prop :=
  ∃ acts w' x', (∀ a ∈ acts, WatchAct.isOf i a = true) ∧ Conc.runAll (WatchHub.step lib h) w acts = some w' ∧
    w'.watchers[i]? = some x' ∧ x'.phase = .ended .unavailable

end Gate
