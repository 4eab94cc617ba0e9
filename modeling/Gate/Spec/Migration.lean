import Gate.Spec.KeyAdmin

/-! `MigrateKeyLayout` (`packages/hub/keys.go`): key records written before the Cluster-ready layout
are copied to it, while the admin API already works on the new one. Each call to Redis is atomic,
a pipelined transaction included. A run that is stopped is a thread that takes no further step. -/

namespace Gate

inductive LayoutOp where
  /-- a call of a request on a key of the new layout -/
  | key (id : String) (op : KeyOp)
  /-- `SMembers` of the legacy index -/
  | members
  /-- `Get` of a legacy record -/
  | legacyGet (id : String)
  /-- the transaction that sets the record and adds the ID to the index -/
  | copy (id : String) (key : KeyRecord)
  | legacyDel (id : String)
  | delIndex
  | returnNil

abbrev LayoutOp.Answer : LayoutOp → Type
  | .key _ op => op.Answer
  | .members => Except StoreFailure (List String)
  | .legacyGet _ => Except StoreFailure (Option KeyRecord)
  | .returnNil => Unit
  | _ => Except StoreFailure Unit

abbrev LayoutProg := Conc.Prog LayoutOp.Answer

def LayoutOp.call (i : LayoutOp) : LayoutProg i.Answer := Conc.Prog.exec i

def legacyMembers : LayoutProg (Except StoreFailure (List String)) := LayoutOp.members.call

def legacyGet (id : String) : LayoutProg (Except StoreFailure (Option KeyRecord)) := (LayoutOp.legacyGet id).call

def copyRecord (id : String) (key : KeyRecord) : LayoutProg (Except StoreFailure Unit) := (LayoutOp.copy id key).call

def legacyDel (id : String) : LayoutProg (Except StoreFailure Unit) := (LayoutOp.legacyDel id).call

def delIndex : LayoutProg (Except StoreFailure Unit) := LayoutOp.delIndex.call

/-- The loop over the IDs, and the deletion of the index after it. -/
def migrateEach : List String → LayoutProg (Except StoreFailure Unit)
  | [] => delIndex
  | id :: ids => do
    match ← legacyGet id with
    | .error e => return .error e
    | .ok none => migrateEach ids
    | .ok (some key) =>
      match ← copyRecord id key with
      | .error e => return .error e
      | .ok _ =>
        match ← legacyDel id with
        | .error e => return .error e
        | .ok _ => migrateEach ids

def migrateKeyLayout : LayoutProg (Except StoreFailure Unit) := do
  match ← legacyMembers with
  | .error e => return .error e
  | .ok [] => return .ok ()
  | .ok (id :: ids) => migrateEach (id :: ids)

/-! The stores. -/

/-- What happened to the records, for the statements about it. -/
inductive LayoutEvent where
  /-- a run copied the legacy record of an ID -/
  | copied (id : String)
  /-- a request saved a record -/
  | saved (id : String)
  /-- a request deleted a record -/
  | deleted (id : String)
  /-- a run returned nil -/
  | finished
  deriving DecidableEq

structure Layout where
  keys : String → KeyWorld
  indexed : String → Bool
  legacyIndex : List String
  legacy : String → Option KeyRecord
  /-- newest first -/
  events : List LayoutEvent

/-- A legacy layout, and the stores before anything is copied: the secrets of its keys were issued. -/
structure LegacyLayout where
  index : List String
  legacy : String → Option KeyRecord
  keys : String → KeyWorld
  fresh : ∀ id, (keys id).record = none ∧ (keys id).log = []
  issued : ∀ id, legacy id ≠ none → (keys id).issued ≠ []

def LegacyLayout.start (l : LegacyLayout) : Layout := ⟨l.keys, fun _ => false, l.index, l.legacy, []⟩

structure LayoutChoice extends KeyChoice where
  /-- the order in which `SMembers` lists the IDs -/
  order : List String

namespace Layout

def setKey (w : Layout) (id : String) (key : KeyWorld) : Layout := { w with keys := Function.update w.keys id key }

def note (w : Layout) (e : LayoutEvent) : Layout := { w with events := e :: w.events }

def setIndexed (w : Layout) (id : String) (b : Bool) : Layout := { w with indexed := Function.update w.indexed id b }

/-- The index entry goes with the record, in the same transaction. -/
def track (w : Layout) (id : String) (fails : Bool) : KeyOp → Layout
  | .save _ => if fails then w else (w.setIndexed id true).note (.saved id)
  | .deleteRecord => if fails then w else (w.setIndexed id false).note (.deleted id)
  | _ => w

end Layout

def LayoutOp.run (hash : String → String) : (i : LayoutOp) → LayoutChoice → Layout → Option (i.Answer × Layout)
  | .key id op, c, w =>
    (op.run hash c.toKeyChoice (w.keys id)).map fun out => (out.1, (w.setKey id out.2).track id c.fails op)
  | .members, c, w =>
    if c.fails then some (.error .failed, w)
    else if c.order.Perm w.legacyIndex then some (.ok c.order, w) else none
  | .legacyGet id, c, w => some (if c.fails then .error .failed else .ok (w.legacy id), w)
  | .copy id b, c, w => some <|
    if c.fails then (.error .failed, w)
    else (.ok (), ((w.setKey id { w.keys id with record := some b }).setIndexed id true).note (.copied id))
  | .legacyDel id, c, w => some <|
    if c.fails then (.error .failed, w) else (.ok (), { w with legacy := Function.update w.legacy id none })
  | .delIndex, c, w => some <| if c.fails then (.error .failed, w) else (.ok (), { w with legacyIndex := [] })
  | .returnNil, _, w => some ((), w.note .finished)

/-! Runs and requests at once. -/

inductive LayoutStart where
  | migrate
  | request (id : String) (call : KeyCall)

def migrateThread : LayoutProg Unit := do
  match ← migrateKeyLayout with
  | .error _ => return ()
  | .ok _ => LayoutOp.returnNil.call

def LayoutStart.thread (hash : String → String) : LayoutStart → LayoutProg Unit
  | .migrate => migrateThread
  | .request id call => (call.thread hash).hoist (LayoutOp.key id)

def layoutSem (hash : String → String) : Conc.Sem LayoutOp.Answer Layout LayoutChoice LayoutStart :=
  Conc.starting (LayoutOp.run hash) (LayoutStart.thread hash)

abbrev LayoutAct := Conc.Act LayoutChoice LayoutStart

/-- No run copies a record that was copied before, and no request saves a record that was deleted
since it loaded it. -/
def LayoutOp.First (w : Layout) : LayoutOp → Prop
  | .copy id _ => .copied id ∉ w.events
  | .key id (.save _) => .deleted id ∉ w.events
  | _ => True

instance (w : Layout) : ∀ i : LayoutOp, Decidable (i.First w)
  | .copy _ _ | .key _ (.save _) => inferInstanceAs (Decidable (¬ _))
  | .key _ .load | .key _ .deleteRecord | .key _ (.setTier ..) | .key _ (.deleteTier ..) | .key _ (.setOwner ..)
  | .key _ .newKey | .key _ (.newSecret _) | .key _ (.reply _) | .members | .legacyGet _ | .legacyDel _ | .delIndex
  | .returnNil => isTrue trivial

def copiedOnce : Conc.Pool.Cond LayoutOp Layout LayoutChoice LayoutStart where
  instr i c w := c.fails = false → i.First w
  event _ _ := True

instance (i : LayoutOp) (c : LayoutChoice) (w : Layout) : Decidable (copiedOnce.instr i c w) :=
  inferInstanceAs (Decidable (_ → _))

instance (e : LayoutStart) (w : Layout) : Decidable (copiedOnce.event e w) := isTrue trivial

end Gate
