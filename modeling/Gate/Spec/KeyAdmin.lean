import Gate.Lib.Serial
import Gate.Spec.Config

/-! The key handlers of the hub's admin API (`packages/hub/keys.go`), for one key ID. A handler
is a program over the calls it makes to the record store and the tier store; each call is
atomic and may fail. `hash` stands for SHA-256 of a secret. -/

namespace Gate

structure KeyRecord where
  id : String
  group : String
  tier : String
  owner : String
  name : String
  hash : String
  deriving DecidableEq, Repr

structure KeyRequest where
  group : Option String
  tier : Option String
  owner : Option String
  name : Option String
  deriving DecidableEq, Repr

def deref (p : Option String) : String := (p.map trimSpace).getD ""

/-- What a handler answers. -/
inductive KeyReply where
  | created (key : KeyRecord) (secret : String)
  | updated (key : KeyRecord)
  | rotated (key : KeyRecord) (secret : String)
  | noContent
  | problem (status : ℕ) (code detail : String)
  deriving DecidableEq, Repr

def internalError : KeyReply := .problem 500 "internal" "internal server error"

inductive StoreFailure where
  | failed
  deriving DecidableEq, Repr

/-- The calls a handler makes: on the record, on the tier store, and for randomness. -/
inductive KeyOp where
  | load
  | save (key : KeyRecord)
  | deleteRecord
  | setTier (group hash tier : String)
  | deleteTier (group hash : String)
  | setOwner (group hash owner : String)
  | newKey
  | newSecret (id : String)
  | reply (r : KeyReply)

abbrev KeyOp.Answer : KeyOp → Type
  | .load => Except StoreFailure (Option KeyRecord)
  | .newKey => String × String
  | .newSecret _ => String
  | .reply _ => Unit
  | _ => Except StoreFailure Unit

abbrev KeyProg := Conc.Prog KeyOp.Answer

def KeyOp.call (i : KeyOp) : KeyProg i.Answer := Conc.Prog.exec i

def loadKey : KeyProg (Except StoreFailure (Option KeyRecord)) := KeyOp.load.call

def saveKey (key : KeyRecord) : KeyProg (Except StoreFailure Unit) := (KeyOp.save key).call

def deleteRecord : KeyProg (Except StoreFailure Unit) := KeyOp.deleteRecord.call

def setTier (group hash tier : String) : KeyProg (Except StoreFailure Unit) := (KeyOp.setTier group hash tier).call

def deleteTier (group hash : String) : KeyProg (Except StoreFailure Unit) := (KeyOp.deleteTier group hash).call

def setOwner (group hash owner : String) : KeyProg (Except StoreFailure Unit) := (KeyOp.setOwner group hash owner).call

def newKey : KeyProg (String × String) := KeyOp.newKey.call

def newSecret (id : String) : KeyProg String := (KeyOp.newSecret id).call

/-- An empty tier revokes the hash, and its owner with it; no owner leaves the owner alone. -/
def assign (group hash tier : String) (owner : Option String) : KeyProg (Except StoreFailure Unit) :=
  if tier = "" then do
    match ← deleteTier group hash with
    | .error e => return .error e
    | .ok _ => setOwner group hash ""
  else do
    match ← setTier group hash tier with
    | .error e => return .error e
    | .ok _ =>
      match owner with
      | some o => setOwner group hash o
      | none => return .ok ()

def isAllowedPrefix (cfg : GatewayConfig) (group : String) : Bool := (cfg.findPrefix group).isSome

def tierDefinedInPrefix (cfg : GatewayConfig) (group tier : String) : Bool :=
  tier ≠ "" && match cfg.findPrefix group with
    | none => false
    | some p => p.services.any fun svc => (findTier svc tier).isSome

section Handlers

variable (hash : String → String)

/-- The body is a decoded request, or the decoder's complaint. -/
def createKey (cfg : GatewayConfig) (body : Except String KeyRequest) : KeyProg KeyReply :=
  match body with
  | .error e => return .problem 400 "bad_request" ("body must be JSON: " ++ e)
  | .ok req =>
    let group := deref req.group
    let tier := deref req.tier
    if !isAllowedPrefix cfg group then
      return .problem 400 "unknown_group" "group must be the first path segment of a configured service, e.g. v1"
    else if !tierDefinedInPrefix cfg group tier then
      return .problem 400 "unknown_tier" "tier is not defined by any service in the group"
    else do
      let (id, secret) ← newKey
      let key : KeyRecord := ⟨id, group, tier, deref req.owner, deref req.name, hash secret⟩
      match ← saveKey key with
      | .error _ => return internalError
      | .ok _ =>
        match ← assign group key.hash tier (some key.owner) with
        | .error _ => return internalError
        | .ok _ => return .created key secret

def keyFromPath : KeyProg (Except KeyReply KeyRecord) := do
  match ← loadKey with
  | .error _ => return .error internalError
  | .ok none => return .error (.problem 404 "no_such_key" "")
  | .ok (some key) => return .ok key

/-- Whether a request changes the tier of a record. -/
def KeyRequest.tierChanged (req : KeyRequest) (key : KeyRecord) : Bool :=
  req.tier.isSome && deref req.tier ≠ key.tier

/-- The record with a request's changes. -/
def KeyRecord.patch (key : KeyRecord) (req : KeyRequest) : KeyRecord :=
  { key with
    owner := if req.owner.isSome then deref req.owner else key.owner
    name := if req.name.isSome then deref req.name else key.name
    tier := if req.tierChanged key then deref req.tier else key.tier }

def updateKey (cfg : GatewayConfig) (body : Except String KeyRequest) : KeyProg KeyReply := do
  match ← keyFromPath with
  | .error r => return r
  | .ok key =>
    match body with
    | .error e => return .problem 400 "bad_request" ("body must be JSON: " ++ e)
    | .ok req =>
      if req.group.isSome then
        return .problem 400 "immutable_group" "a key's group cannot change; issue a new key"
      else if req.tierChanged key && !tierDefinedInPrefix cfg key.group (deref req.tier) then
        return .problem 400 "unknown_tier" "tier is not defined by any service in the group"
      else
        let key' := key.patch req
        match ← saveKey key' with
        | .error _ => return internalError
        | .ok _ =>
          if req.tierChanged key || req.owner.isSome then
            match ← assign key'.group key'.hash key'.tier (some key'.owner) with
            | .error _ => return internalError
            | .ok _ => return .updated key'
          else return .updated key'

def rotateKey : KeyProg KeyReply := do
  match ← keyFromPath with
  | .error r => return r
  | .ok key =>
    let secret ← newSecret key.id
    let key' := { key with hash := hash secret }
    match ← saveKey key' with
    | .error _ => return internalError
    | .ok _ =>
      match ← assign key'.group key'.hash key'.tier (some key'.owner) with
      | .error _ => return internalError
      | .ok _ =>
        match ← assign key'.group key.hash "" none with
        | .error _ => return internalError
        | .ok _ => return .rotated key' secret

def deleteKey : KeyProg KeyReply := do
  match ← keyFromPath with
  | .error r => return r
  | .ok key =>
    match ← assign key.group key.hash "" none with
    | .error _ => return internalError
    | .ok _ =>
      match ← deleteRecord with
      | .error _ => return internalError
      | .ok _ => return .noContent

end Handlers

/-- The stores, as far as one key ID goes, and the hashes of all secrets made for it. -/
structure KeyWorld where
  id : String
  record : Option KeyRecord
  tier : String → String → Option String
  owner : String → String → Option String
  issued : List String
  /-- how many writes to the stores went through -/
  writes : ℕ
  log : List KeyReply

namespace KeyWorld

/-- Nothing is stored for the ID yet. -/
def empty (id : String) : KeyWorld := ⟨id, none, fun _ _ => none, fun _ _ => none, [], 0, []⟩

/-- A key that has just been created. -/
def created (key : KeyRecord) : KeyWorld where
  id := key.id
  record := some key
  tier g h := if g = key.group ∧ h = key.hash then some key.tier else none
  owner g h := if g = key.group ∧ h = key.hash ∧ key.owner ≠ "" then some key.owner else none
  issued := [key.hash]
  writes := 0
  log := []

/-- The owner on record for a hash; none is the empty owner. -/
def ownerOf (w : KeyWorld) (group hash : String) : String := (w.owner group hash).getD ""

end KeyWorld

def update₂ {α : Type} (f : String → String → α) (g h : String) (v : α) : String → String → α :=
  fun g' h' => if g' = g ∧ h' = h then v else f g' h'

/-- How a call turns out: whether it fails, and what the random source gives. -/
structure KeyChoice where
  fails : Bool
  random : String
  deriving DecidableEq, Repr

/-- A write; one that fails changes nothing. -/
def attemptWrite (c : KeyChoice) (w w' : KeyWorld) : Except StoreFailure Unit × KeyWorld :=
  if c.fails then (.error .failed, w) else (.ok (), { w' with writes := w.writes + 1 })

def keysRotate (id random : String) : String := "gk_" ++ id ++ "_" ++ random

/-- A new secret is one whose hash was never issued before; a new ID is one never used. -/
def KeyOp.run (hash : String → String) : (i : KeyOp) → KeyChoice → KeyWorld → Option (i.Answer × KeyWorld)
  | .load, c, w => some (if c.fails then .error .failed else .ok w.record, w)
  | .save key, c, w => some (attemptWrite c w { w with record := some key })
  | .deleteRecord, c, w => some (attemptWrite c w { w with record := none })
  | .setTier g h t, c, w => some (attemptWrite c w { w with tier := update₂ w.tier g h (some t) })
  | .deleteTier g h, c, w => some (attemptWrite c w { w with tier := update₂ w.tier g h none })
  | .setOwner g h o, c, w =>
    some (attemptWrite c w { w with owner := update₂ w.owner g h (if o = "" then none else some o) })
  | .newKey, c, w =>
    let secret := keysRotate w.id c.random
    if w.issued = [] then some ((w.id, secret), { w with issued := [hash secret] }) else none
  | .newSecret id, c, w =>
    let secret := keysRotate id c.random
    if hash secret ∈ w.issued then none else some (secret, { w with issued := hash secret :: w.issued })
  | .reply r, _, w => some ((), { w with log := r :: w.log })

/-! Requests at once. -/

inductive KeyCall where
  | create (cfg : GatewayConfig) (body : Except String KeyRequest)
  | update (cfg : GatewayConfig) (body : Except String KeyRequest)
  | rotate
  | delete

def KeyCall.handler (hash : String → String) : KeyCall → KeyProg KeyReply
  | .create cfg body => createKey hash cfg body
  | .update cfg body => updateKey cfg body
  | .rotate => rotateKey hash
  | .delete => deleteKey

/-- A request from its handler to its answer. -/
def KeyCall.thread (hash : String → String) (call : KeyCall) : KeyProg Unit := do
  let r ← call.handler hash
  (KeyOp.reply r).call

/-- A request on a key that exists. -/
inductive KeyChange where
  | update (cfg : GatewayConfig) (body : Except String KeyRequest)
  | rotate
  | delete

def KeyChange.call : KeyChange → KeyCall
  | .update cfg body => .update cfg body
  | .rotate => .rotate
  | .delete => .delete

abbrev KeyPool := Conc.Pool KeyOp.Answer KeyWorld

abbrev KeyAct := Conc.Act KeyChoice KeyChange

def keySem (hash : String → String) : Conc.Sem KeyOp.Answer KeyWorld KeyChoice KeyChange :=
  Conc.starting (KeyOp.run hash) fun e => e.call.thread hash

/-- A call of a store fails only where failures are allowed. -/
def mayFail (allowed : Bool) (_ : KeyOp) (c : KeyChoice) (_ : KeyWorld) : Prop := c.fails = true → allowed = true

instance (allowed : Bool) (i : KeyOp) (c : KeyChoice) (w : KeyWorld) : Decidable (mayFail allowed i c w) :=
  inferInstanceAs (Decidable (_ → _))

def KeyOp.isLoad : KeyOp → Bool
  | .load => true
  | _ => false

/-! Requests one after the other. -/

/-- The stores, and whether the last request that wrote to them was answered with a failure. -/
structure KeyHistory where
  world : KeyWorld
  torn : Bool

def KeyHistory.step (hash : String → String) (s : KeyHistory) (a : KeyCall × List KeyChoice) : Option KeyHistory :=
  (Conc.alone (KeyOp.run hash) (a.1.handler hash) a.2 s.world).map fun out =>
    ⟨{ out.2 with log := out.1 :: out.2.log },
      if out.2.writes = s.world.writes then s.torn else decide (out.1 = internalError)⟩

/-- A request replaced the hash in the record, and the old one kept its tier. -/
def KeyWorld.Orphans (w w' : KeyWorld) : Prop :=
  match w.record, w'.record with
  | some key, some key' => key'.hash ≠ key.hash ∧ w'.tier key.group key.hash ≠ none
  | _, _ => False

instance (w w' : KeyWorld) : Decidable (w.Orphans w') :=
  match h : w.record, h' : w'.record with
  | some key, some key' =>
    decidable_of_iff (key'.hash ≠ key.hash ∧ w'.tier key.group key.hash ≠ none) (by simp [KeyWorld.Orphans, h, h'])
  | some _, none | none, _ => isFalse (by simp [KeyWorld.Orphans, h, h'])

/-- No rotation stops with the old hash replaced in the record and still in the tier store. -/
def KeyHistory.finishes (hash : String → String) (s : KeyHistory) (a : KeyCall × List KeyChoice) : Prop :=
  ∀ s' ∈ s.step hash a, ¬s.world.Orphans s'.world

instance (hash : String → String) (s : KeyHistory) (a : KeyCall × List KeyChoice) : Decidable (s.finishes hash a) :=
  inferInstanceAs (Decidable (∀ s' ∈ s.step hash a, ¬s.world.Orphans s'.world))

/-- A request that leaves the tier store alone: it names no owner and no other tier. -/
def KeyRequest.Silent (req : KeyRequest) (key : KeyRecord) : Prop := req.tierChanged key = false ∧ req.owner = none

instance (req : KeyRequest) (key : KeyRecord) : Decidable (req.Silent key) := inferInstanceAs (Decidable (_ ∧ _))

/-- A silent update is made only if the last request that wrote to the stores did not fail. -/
def KeyHistory.settles (s : KeyHistory) (a : KeyCall × List KeyChoice) : Prop :=
  match a.1, s.world.record with
  | .update _ (.ok req), some key => req.Silent key → s.torn = false
  | _, _ => True

instance (s : KeyHistory) (a : KeyCall × List KeyChoice) : Decidable (s.settles a) :=
  show Decidable (match a.1, s.world.record with
    | .update _ (.ok req), some key => req.Silent key → s.torn = false
    | _, _ => True) from
  match a.1, s.world.record with
  | .update _ (.ok req), some key => inferInstanceAs (Decidable (req.Silent key → s.torn = false))
  | .update _ (.error _), _ | .update _ (.ok _), none | .create _ _, _ | .rotate, _ | .delete, _ => isTrue trivial

def KeyHistory.init (id : String) : KeyHistory := ⟨.empty id, false⟩

end Gate
