import Gate.Lib.Run
import Gate.Spec.Compile
import Gate.Spec.Load

/-! Config changes between hubs (`packages/hub/controlplane.go`, with `handleConfigReload` of
`server.go` and the config manager of `config.go`). Every hub applies a reload itself and then
publishes its active config on a channel that all hubs read in one order. The response-cache scopes
that a change invalidates are left out: no hub's config depends on them. -/

namespace Gate

section
variable (lib : Library)

/-- `decodeAndValidateConfig`, of a document that parses. -/
def decodeAndValidate (f : Config.File) : Option Types.GatewayConfig :=
  if Config.Accepted lib f then
    match validateGatewayConfig lib (some (Config.compile f)) with
    | .ok _ => some (Config.compile f)
    | .error _ => none
  else none

/-- `ConfigManager.ReloadFromPayload`: the config that becomes active. -/
def reloadFromPayload (cfg : Types.GatewayConfig) : Except String Types.GatewayConfig :=
  let next := { cfg with runtime := cfg.runtime.effective }
  match validateGatewayConfig lib (some next) with
  | .error err => .error ("invalid gateway config payload: " ++ err)
  | .ok _ => .ok next

/-- A reload takes the request's body, or the hub's file. -/
inductive ReloadMode where
  | payload
  | file
  deriving DecidableEq, Repr

/-- The config a reload makes active, if it succeeds. -/
def reloadTarget (mode : ReloadMode) (f : Config.File) : Option Types.GatewayConfig :=
  match decodeAndValidate lib f with
  | none => none
  | some cfg =>
    match mode with
    | .payload => (reloadFromPayload lib cfg).toOption
    | .file => some cfg

end

/-- A `handleConfigReload` that has applied its config. -/
inductive ReloadPhase where
  | applied
  /-- it has read the active config to publish it -/
  | read (cfg : Types.GatewayConfig)

def ReloadPhase.isApplied : ReloadPhase → Bool
  | .applied => true
  | .read _ => false

inductive ControlBody where
  | config (cfg : Types.GatewayConfig)
  | tier (group apiKey tierID : String)

def ControlBody.config? : ControlBody → Option Types.GatewayConfig
  | .config cfg => some cfg
  | .tier _ _ _ => none

structure ControlMessage (ι : Type) where
  origin : ι
  body : ControlBody

/-- One hub. -/
structure HubState (ι : Type) where
  active : Types.GatewayConfig
  reloads : List ReloadPhase
  /-- published messages that its relay has still to receive -/
  inbox : List (ControlMessage ι)

/-- Hubs on one channel. -/
structure Hubs (ι : Type) where
  hub : ι → HubState ι
  /-- what was published, in the channel's order -/
  log : List (ControlMessage ι)

def Hubs.start {ι : Type} (cfg : Types.GatewayConfig) : Hubs ι where
  hub _ := { active := cfg, reloads := [], inbox := [] }
  log := []

inductive HubAct (ι : Type) where
  | reload (h : ι) (mode : ReloadMode) (f : Config.File)
  /-- a reload reads the active config -/
  | snapshot (h : ι) (i : ℕ)
  | publish (h : ι) (i : ℕ)
  | publishTier (h : ι) (group apiKey tierID : String)
  /-- the hub's relay receives a message: `deliver` -/
  | deliver (h : ι)

section
variable {ι : Type} [DecidableEq ι]

/-- What `deliver` does to the active config: a config of another hub is taken over, unless it is
rejected. -/
def adopt (lib : Library) (h : ι) (active : Types.GatewayConfig) (m : ControlMessage ι) : Types.GatewayConfig :=
  match m.body with
  | .tier _ _ _ => active
  | .config cfg =>
    if m.origin = h then active
    else match reloadFromPayload lib cfg with
      | .ok next => next
      | .error _ => active

def HubState.receive (s : HubState ι) (m : ControlMessage ι) : HubState ι := { s with inbox := s.inbox ++ [m] }

namespace Hubs

def set (w : Hubs ι) (h : ι) (s : HubState ι) : Hubs ι := { w with hub := Function.update w.hub h s }

/-- The channel brings a message to every hub, its origin included. -/
def post (w : Hubs ι) (m : ControlMessage ι) : Hubs ι where
  hub k := (w.hub k).receive m
  log := w.log ++ [m]

def step (lib : Library) (w : Hubs ι) : HubAct ι → Option (Hubs ι)
  | .reload h mode f =>
    match reloadTarget lib mode f with
    | none => none
    | some cfg => some (w.set h { w.hub h with active := cfg, reloads := (w.hub h).reloads ++ [.applied] })
  | .snapshot h i =>
    match (w.hub h).reloads[i]? with
    | some .applied => some (w.set h { w.hub h with
        reloads := (w.hub h).reloads.set i (.read (w.hub h).active) })
    | _ => none
  | .publish h i =>
    match (w.hub h).reloads[i]? with
    | some (.read cfg) => some ((w.set h { w.hub h with
        reloads := (w.hub h).reloads.eraseIdx i }).post ⟨h, .config cfg⟩)
    | _ => none
  | .publishTier h group apiKey tierID => some (w.post ⟨h, .tier group apiKey tierID⟩)
  | .deliver h =>
    match (w.hub h).inbox with
    | [] => none
    | m :: rest => some (w.set h { w.hub h with active := adopt lib h (w.hub h).active m, inbox := rest })

end Hubs

end

/-- Every reload was published, and every message delivered to every hub. -/
def Hubs.Quiet {ι : Type} (w : Hubs ι) : Prop := ∀ h, (w.hub h).reloads = [] ∧ (w.hub h).inbox = []

end Gate
