import Gate.Spec.Config

/-! The decision service's descriptor trees (`packages/decide/decide.go`): `Resolve`
matches a descriptor, `Find` reads back the limit at a path. -/

namespace Gate.Decide

/-- `decide.Scope`, the ledger scope of descriptor limits. -/
def scope : String := "_rls"

structure Entry where
  key : String
  value : String
  deriving DecidableEq, Repr

structure Match where
  limitID : String
  subject : String
  spec : LimitSpec

def findDomain (cfg : GatewayConfig) (domain : String) : Option DescriptorDomain :=
  cfg.descriptors.find? fun d => d.domain = domain

def segment (e : DescriptorEntry) : String :=
  if e.value = "" then e.key else e.key ++ "=" ++ e.value

/-- One counter per combination of the values that the config leaves open. -/
def subject (digest : String → String) (values : List String) : String :=
  if values = [] then "_all" else "v" ++ digest ("\x00".intercalate values)

def matching (level : List DescriptorEntry) (key value : String) : Option DescriptorEntry :=
  level.find? fun e => e.key = key ∧ e.value = value

/-- One level of `Resolve`'s walk: an exact value wins over a wildcard, which records the value. -/
def descend (level : List DescriptorEntry) (e : Entry) : Option (DescriptorEntry × List String) :=
  match matching level e.key e.value with
  | some node => some (node, [])
  | none => (matching level e.key "").map fun node => (node, [e.value])

def walk : List DescriptorEntry → List Entry → Option (List DescriptorEntry × List String)
  | _, [] => some ([], [])
  | level, e :: es => do
    let (node, v) ← descend level e
    let (nodes, vs) ← walk node.entries es
    return (node :: nodes, v ++ vs)

def resolve (digest : String → String) (cfg : GatewayConfig) (domain : String)
    (entries : List Entry) : Option Match := do
  let d ← findDomain cfg domain
  let (nodes, values) ← walk d.entries entries
  let spec ← (← nodes.getLast?).limit
  return ⟨"/".intercalate (nodes.map segment), subject digest values, spec⟩

/-- `strings.Split` on one character. -/
def split (c : Char) (s : String) : List String := (s.toList.splitOn c).map String.ofList

/-- `strings.Cut` on one character: what is before it and what is after. -/
def cut (c : Char) (s : String) : String × String :=
  let (a, b) := s.toList.span (· ≠ c)
  (String.ofList a, String.ofList b.tail)

def findPath : List DescriptorEntry → List String → Option (Option DescriptorEntry)
  | _, [] => some none
  | level, seg :: segs => do
    let node ← matching level (cut '=' seg).1 (cut '=' seg).2
    match ← findPath node.entries segs with
    | none => return some node
    | some last => return some last

def find (cfg : GatewayConfig) (domain limitID : String) : Option LimitSpec := do
  let d ← findDomain cfg domain
  if limitID = "" then none
  (← (← findPath d.entries (split '/' limitID))).limit

/-! What a descriptor was matched to, apart from how the match is written down. -/

/-- The index of the entry that `descend` takes. -/
def descendAt (level : List DescriptorEntry) (e : Entry) : ℕ :=
  let exact := level.findIdx fun n => n.key = e.key ∧ n.value = e.value
  if exact < level.length then exact else level.findIdx fun n => n.key = e.key ∧ n.value = ""

/-- The node of the tree that a descriptor is matched to, by the indices on the way to it. -/
def position : List DescriptorEntry → List Entry → Option (List ℕ)
  | _, [] => some []
  | level, e :: es => do
    let node ← level[descendAt level e]?
    let rest ← position node.entries es
    return descendAt level e :: rest

def matchedAt (cfg : GatewayConfig) (domain : String) (entries : List Entry) : Option (List ℕ) := do
  let d ← findDomain cfg domain
  position d.entries entries

/-- The descriptor's values at the entries configured without one. -/
def openValues (cfg : GatewayConfig) (domain : String) (entries : List Entry) : Option (List String) := do
  let d ← findDomain cfg domain
  let (nodes, _) ← walk d.entries entries
  return ((nodes.zip entries).filter fun x => x.1.value = "").map fun x => x.2.value

end Gate.Decide
