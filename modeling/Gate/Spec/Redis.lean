import Gate.Spec.Calls

/-! `Redis`, the production ledger: the scripts of `packages/ledger/redis.go` and `region.go`, over
the commands they use. A script is atomic and reads the clock once. A key is a string that holds an
integer, or a sorted set; one that Redis would refuse to use as both is not modelled. Lua's numbers
are exact. -/

namespace Gate

/-- What is stored under a key, and when it expires. -/
structure Stored (α : Type) where
  val : α
  exp : Option ℤ
  deriving DecidableEq, Repr

/-- A key is absent once its TTL has passed. -/
def Stored.live {α : Type} (s : Stored α) (now : ℤ) : Bool :=
  match s.exp with
  | some e => now < e
  | none => true

structure Redis where
  strs : String → Option (Stored ℤ)
  zsets : String → Option (Stored (List (String × ℤ)))

namespace Redis

def new : Redis := ⟨fun _ => none, fun _ => none⟩

/-! Commands. -/

def find (r : Redis) (now : ℤ) (key : String) : Option (Stored ℤ) := (r.strs key).filter fun s => s.live now

def get (r : Redis) (now : ℤ) (key : String) : Option ℤ := (r.find now key).map Stored.val

def put (r : Redis) (key : String) (s : Stored ℤ) : Redis := { r with strs := Function.update r.strs key (some s) }

/-- `SET key v PX px`. -/
def set (r : Redis) (now : ℤ) (key : String) (v px : ℤ) : Redis := r.put key ⟨v, some (now + px)⟩

/-- `SET key 1 NX PX px`: did it set the key? -/
def setNX (r : Redis) (now : ℤ) (key : String) (px : ℤ) : Bool × Redis :=
  if (r.find now key).isSome then (false, r) else (true, r.set now key 1 px)

/-- `INCRBY`: a missing key counts from zero and has no TTL. -/
def incrBy (r : Redis) (now : ℤ) (key : String) (d : ℤ) : ℤ × Redis :=
  match r.find now key with
  | some s => (s.val + d, r.put key ⟨s.val + d, s.exp⟩)
  | none => (d, r.put key ⟨d, none⟩)

def pexpire (r : Redis) (now : ℤ) (key : String) (ttl : ℤ) : Redis :=
  match r.find now key with
  | some s => r.put key ⟨s.val, some (now + ttl)⟩
  | none => r

def members (r : Redis) (now : ℤ) (key : String) : List (String × ℤ) :=
  match (r.zsets key).filter fun s => s.live now with
  | some s => s.val
  | none => []

/-- `ZADD` of the edge at the time, and `PEXPIRE`. -/
def zaddExpire (r : Redis) (now : ℤ) (key edge : String) (ttl : ℤ) : Redis :=
  { r with zsets := Function.update r.zsets key (some ⟨touchEdge (r.members now key) edge now, some (now + ttl)⟩) }

/-- `ZCOUNT key (since +inf`. -/
def zcount (r : Redis) (now : ℤ) (key : String) (since : ℤ) : ℤ :=
  ((r.members now key).filter fun x => since < x.2).length

/-! `grantLua`. -/

def edgesKey (base : String) : String := base ++ ":edges"

def measureBucket (r : Redis) (inp : GrantInput) (now : ℤ) : Measure :=
  let T : ℚ := 1000 / inp.rate
  let tau : ℚ := inp.limit * T
  let tat := (r.get now inp.key).getD now
  let tat := if tat < now then now else tat
  { avail := ⌊(now + tau - tat) / T⌋, wid := 0, reset := 0, expires := inp.ttl, tat := tat,
    prev := 0, cur := 0, f := 0, key := inp.key, limit := inp.limit }

def measureWindow (r : Redis) (inp : GrantInput) (now : ℤ) : Measure :=
  let wid := now / inp.win
  let reset := (wid + 1) * inp.win - now
  let limit := if 0 ≤ inp.allocBase then inp.allocBase + (r.get now (allocKey inp.key wid)).getD 0 else inp.limit
  let cur := (r.get now (winKey inp.key wid)).getD 0
  let sliding := inp.algo = .slidingWindow
  let prev := if sliding then (r.get now (winKey inp.key (wid - 1))).getD 0 else 0
  let f : ℚ := if sliding then ((now - wid * inp.win : ℤ) : ℚ) / inp.win else 0
  let used := if sliding then cur + ⌈(prev : ℚ) * (1 - f)⌉ else cur
  { avail := limit - used, wid := wid, reset := reset, expires := reset, tat := 0,
    prev := prev, cur := cur, f := f, key := winKey inp.key wid, limit := limit }

def measure (r : Redis) (inp : GrantInput) (now : ℤ) : Measure :=
  if inp.algo = .tokenBucket then r.measureBucket inp now else r.measureWindow inp now

def nest (r : Redis) (inp : GrantInput) (ms : Measure) (now : ℤ) : Nested :=
  if inp.parentKey = "" then ⟨ms.avail, ms.expires, "", 0, 0, false⟩
  else
    let pwid := now / inp.pwin
    let pkey := winKey inp.parentKey pwid
    let preset := (pwid + 1) * inp.pwin - now
    let pavail := inp.plimit - (r.get now pkey).getD 0
    { avail := if pavail < ms.avail then pavail else ms.avail
      expires := if preset < ms.expires then preset else ms.expires
      pkey := pkey
      pwid := pwid
      preset := preset
      parentBinds := pavail < ms.avail }

def countEdges (r : Redis) (inp : GrantInput) (avail now : ℤ) : ℤ × Redis :=
  if inp.edge ≠ "" ∧ avail < 64 * inp.target then
    let r := r.zaddExpire now (edgesKey inp.key) inp.edge inp.activeMs
    (r.zcount now (edgesKey inp.key) (now - inp.activeMs), r)
  else (1, r)

def retry (inp : GrantInput) (ms : Measure) (ne : Nested) (now : ℤ) : ℤ :=
  if ne.parentBinds then min (max (inp.pwin / 10) 500) ne.preset
  else if inp.algo = .tokenBucket then
    let T : ℚ := 1000 / inp.rate
    max ⌈(ms.tat : ℚ) + T - ms.limit * T - now⌉ 1
  else if inp.algo = .slidingWindow ∧ 0 < ms.prev ∧ ms.cur < ms.limit then
    let fneed : ℚ := 1 - ((ms.limit - 1 - ms.cur : ℤ) : ℚ) / ms.prev
    min (max ⌈(fneed - ms.f) * inp.win⌉ 10) ms.reset
  else min (max (inp.win / 10) 500) ms.reset

def size (avail n target : ℤ) : ℤ := min (if avail < n * target then (avail + n - 1) / n else target) avail

/-- The TTL of a window's keys: to the end of the next window, and a second more. -/
def windowTTL (win : ℤ) : ℤ := 2 * win + 1000

def debit (r : Redis) (inp : GrantInput) (ms : Measure) (ne : Nested) (now grant : ℤ) : Redis :=
  let r :=
    if inp.algo = .tokenBucket then
      let tat := ⌈(ms.tat : ℚ) + grant * (1000 / inp.rate)⌉
      r.set now ms.key tat (tat - now + 1000)
    else
      let (v, r) := r.incrBy now ms.key grant
      if v = grant then r.pexpire now ms.key (windowTTL inp.win) else r
  if ne.pkey ≠ "" then ((r.incrBy now ne.pkey grant).2).pexpire now ne.pkey (windowTTL inp.pwin) else r

def grantLua (r : Redis) (now : ℤ) (inp : GrantInput) : Grant × Redis :=
  let ms := r.measure inp now
  let ne := r.nest inp ms now
  let (n, r) := r.countEdges inp ne.avail now
  if ne.avail ≤ 0 then
    let reset := if inp.algo = .tokenBucket then ms.tat - now else ms.reset
    (result 0 0 ms.wid ne.expires reset (retry inp ms ne now) n ne.pwid, r)
  else
    let grant := size ne.avail n inp.target
    let reset := if inp.algo = .tokenBucket then ⌈(ms.tat : ℚ) + grant * (1000 / inp.rate)⌉ - now else ms.reset
    (result grant (ne.avail - grant) ms.wid ne.expires reset 0 n ne.pwid, r.debit inp ms ne now grant)

def grant (r : Redis) (now : ℤ) (ref : Ref) (spec : Spec) (args : GrantArgs) : Except Err Grant × Redis :=
  match prepare ref spec args with
  | .error e => (.error e, r)
  | .ok inp => let (g, r) := r.grantLua now inp; (.ok g, r)

/-! `returnLua`. -/

def credit (r : Redis) (now : ℤ) (key : String) (tokens ttl : ℤ) : Redis :=
  let used := (r.get now key).getD 0
  let c := if used < tokens then used else tokens
  if c ≠ 0 then ((r.incrBy now key (-c)).2).pexpire now key ttl else r

/-- The quota's own part. -/
def returnOwn (r : Redis) (now : ℤ) (inp : ReturnInput) : Redis :=
  if inp.algo = .tokenBucket then
    let tat := (r.get now inp.key).getD now
    let tat := if tat < now then now else tat
    let tat := ⌈(tat : ℚ) - inp.tokens * (1000 / inp.rate)⌉
    let tat := if tat < now then now else tat
    r.set now inp.key tat (tat - now + 1000)
  else if now / inp.win = inp.wid then r.credit now (winKey inp.key inp.wid) inp.tokens (windowTTL inp.win)
  else r

def applyReturn (r : Redis) (now : ℤ) (inp : ReturnInput) : Redis :=
  let r := r.returnOwn now inp
  if inp.parentKey ≠ "" ∧ now / inp.pwin = inp.pwid then
    r.credit now (winKey inp.parentKey inp.pwid) inp.tokens (windowTTL inp.pwin)
  else r

def returnLua (r : Redis) (now : ℤ) (inp : ReturnInput) : Redis :=
  if inp.dedupeKey ≠ "" then
    let (isNew, r) := r.setNX now inp.dedupeKey inp.dedupeTTL
    if isNew then r.applyReturn now inp else r
  else r.applyReturn now inp

/-- `Redis.Return`: a bad item stops the loop, with the items before it applied. -/
def ret (r : Redis) (now : ℤ) (dedupe : String) : List Ret → Except Err Unit × Redis
  | [] => (.ok (), r)
  | x :: xs =>
    match prepareReturn x dedupe with
    | .error e => (.error e, r)
    | .ok inp => (r.returnLua now inp).ret now dedupe xs

/-! `lendLua` and `creditLua`. -/

def lendLua (r : Redis) (now : ℤ) (key : String) (win wid base want margin : ℤ) (id : String) : ℤ × Redis :=
  if now / win ≠ wid then (0, r)
  else match r.get now (lendKey key id) with
  | some v => (v, r)
  | none =>
    let alloc := base + (r.get now (allocKey key wid)).getD 0
    let used := (r.get now (winKey key wid)).getD 0
    let elapsed := now - wid * win
    let margin := max margin ⌈((used * (win - elapsed) : ℤ) : ℚ) / (max elapsed 1 : ℤ)⌉
    let give := min want (alloc - used - margin)
    let give := if give < 0 then 0 else give
    let r := if 0 < give then ((r.incrBy now (allocKey key wid) (-give)).2).pexpire now (allocKey key wid) (windowTTL win) else r
    (give, r.set now (lendKey key id) give (windowTTL win))

def lend (r : Redis) (now : ℤ) (ref : Ref) (spec : Spec) (base wid want margin : ℤ) (id : String) : Except Err ℤ × Redis :=
  if spec.algo.or ≠ .fixedWindow then (.error .badSpec, r)
  else
    let (give, r) := r.lendLua now (ref.key spec.algo) (windowMs spec) wid base want margin id
    (.ok give, r)

def creditLua (r : Redis) (now : ℤ) (key : String) (win wid amount : ℤ) (id : String) : Bool × Redis :=
  if now / win ≠ wid then (false, r)
  else
    let (isNew, r) := r.setNX now (creditKey key id) (windowTTL win)
    if !isNew then (false, r)
    else (true, ((r.incrBy now (allocKey key wid) amount).2).pexpire now (allocKey key wid) (windowTTL win))

def creditAlloc (r : Redis) (now : ℤ) (ref : Ref) (spec : Spec) (wid amount : ℤ) (id : String) : Except Err Bool × Redis :=
  if spec.algo.or ≠ .fixedWindow then (.error .badSpec, r)
  else
    let (done, r) := r.creditLua now (ref.key spec.algo) (windowMs spec) wid amount id
    (.ok done, r)

/-- A call; the order of `Mem`'s edges is not for Redis. -/
def exec (r : Redis) (c : LedgerCall) : LedgerReply × Redis :=
  match c.op with
  | .grant _ ref spec args => let (res, r) := r.grant c.now ref spec args; (.granted res, r)
  | .ret dedupe returns => let (res, r) := r.ret c.now dedupe returns; (.returned res, r)
  | .lend ref spec base wid want margin id =>
    let (res, r) := r.lend c.now ref spec base wid want margin id; (.lent res, r)
  | .credit ref spec wid amount id => let (res, r) := r.creditAlloc c.now ref spec wid amount id; (.credited res, r)

def replies : Redis → List LedgerCall → List LedgerReply
  | _, [] => []
  | r, c :: cs => (r.exec c).1 :: replies (r.exec c).2 cs

end Redis

def Mem.replies : Mem → List LedgerCall → List LedgerReply
  | _, [] => []
  | m, c :: cs => (m.exec c).1 :: Mem.replies (m.exec c).2 cs

/-! The keys a call uses, apart from how they are written. -/

inductive LedgerKey where
  | arrival (base : String)
  | counter (base : String) (wid : ℤ)
  | alloc (base : String) (wid : ℤ)
  | edges (base : String)
  | loan (base id : String)
  | returned (base dedupe : String)
  | credited (base id : String)
  deriving DecidableEq, Repr

def LedgerKey.text : LedgerKey → String
  | .arrival base => base
  | .counter base wid => winKey base wid
  | .alloc base wid => allocKey base wid
  | .edges base => Redis.edgesKey base
  | .loan base id => lendKey base id
  | .returned base dedupe => retKey base dedupe
  | .credited base id => creditKey base id

def GrantInput.keys (inp : GrantInput) (now : ℤ) : List LedgerKey :=
  (if inp.algo = .tokenBucket then [.arrival inp.key]
    else [.counter inp.key (now / inp.win)] ++
      (if 0 ≤ inp.allocBase then [.alloc inp.key (now / inp.win)] else []) ++
      (if inp.algo = .slidingWindow then [.counter inp.key (now / inp.win - 1)] else [])) ++
    (if inp.parentKey = "" then [] else [.counter inp.parentKey (now / inp.pwin)]) ++
    (if inp.edge = "" then [] else [.edges inp.key])

def ReturnInput.keys (inp : ReturnInput) (dedupe : String) : List LedgerKey :=
  (if dedupe = "" then [] else [.returned inp.key dedupe]) ++
    [if inp.algo = .tokenBucket then .arrival inp.key else .counter inp.key inp.wid] ++
    (if inp.parentKey = "" then [] else [.counter inp.parentKey inp.pwid])

def retKeys (dedupe : String) : List Ret → List LedgerKey
  | [] => []
  | x :: xs =>
    match prepareReturn x dedupe with
    | .error _ => []
    | .ok inp => inp.keys dedupe ++ retKeys dedupe xs

def LedgerCall.keys (c : LedgerCall) : List LedgerKey :=
  match c.op with
  | .grant _ ref spec args =>
    match prepare ref spec args with
    | .error _ => []
    | .ok inp => inp.keys c.now
  | .ret dedupe returns => retKeys dedupe returns
  | .lend ref spec _ wid _ _ id =>
    let key := ref.key spec.algo
    if spec.algo.or = .fixedWindow ∧ c.now / windowMs spec = wid then [.loan key id, .alloc key wid, .counter key wid] else []
  | .credit ref spec wid _ id =>
    let key := ref.key spec.algo
    if spec.algo.or = .fixedWindow ∧ c.now / windowMs spec = wid then [.credited key id, .alloc key wid] else []

/-- A dedupe or transfer ID. -/
def LedgerKey.isID : LedgerKey → Bool
  | .loan _ _ | .returned _ _ | .credited _ _ => true
  | _ => false

/-- An ID that has been used before is used again within the TTL of its key. -/
def LedgerCall.InTTL (r : Redis) (c : LedgerCall) : Prop :=
  ∀ x ∈ c.keys, x.isID = true → ∀ s ∈ r.strs x.text, s.live c.now = true

/-- No two different keys that the calls use are written alike. -/
def WrittenApart (cs : List LedgerCall) : Prop :=
  ∀ c ∈ cs, ∀ d ∈ cs, ∀ x ∈ c.keys, ∀ y ∈ d.keys, x.text = y.text → x = y

instance (r : Redis) (c : LedgerCall) : Decidable (c.InTTL r) := inferInstanceAs (Decidable (∀ x ∈ c.keys, _))

instance : DecidablePred WrittenApart := fun cs => inferInstanceAs (Decidable (∀ c ∈ cs, _))

/-- The window and the time that an edge counts as active for, by ledger key. -/
structure Setting where
  win : String → ℤ
  activeMs : String → ℤ

def Ret.Uses (st : Setting) (r : Ret) : Prop :=
  windowMs r.spec = st.win (r.ref.key r.spec.algo) ∧
    ∀ p ∈ r.parent, r.ref.parent ≠ "" → windowMs p = st.win (r.ref.parentKey .fixedWindow)

/-- The call's specs are those of the ledger keys it names. -/
def LedgerCall.Uses (st : Setting) (c : LedgerCall) : Prop :=
  match c.op with
  | .grant _ ref spec args =>
    windowMs spec = st.win (ref.key spec.algo) ∧
      (∀ p ∈ args.parent, ref.parent ≠ "" → windowMs p = st.win (ref.parentKey .fixedWindow)) ∧
      milliseconds (max (2 * args.horizon) (2 * second)) = st.activeMs (ref.key spec.algo)
  | .ret _ returns => ∀ r ∈ returns, r.Uses st
  | .lend ref spec _ _ _ _ _ | .credit ref spec _ _ _ => windowMs spec = st.win (ref.key spec.algo)

instance (st : Setting) (r : Ret) : Decidable (r.Uses st) := inferInstanceAs (Decidable (_ ∧ ∀ p ∈ r.parent, _))

instance (st : Setting) : (c : LedgerCall) → Decidable (c.Uses st)
  | ⟨_, .grant _ _ _ args⟩ => inferInstanceAs (Decidable (_ ∧ (∀ p ∈ args.parent, _) ∧ _))
  | ⟨_, .ret _ returns⟩ => inferInstanceAs (Decidable (∀ r ∈ returns, r.Uses st))
  | ⟨_, .lend ref spec _ _ _ _ _⟩ => inferInstanceAs (Decidable (windowMs spec = st.win (ref.key spec.algo)))
  | ⟨_, .credit ref spec _ _ _⟩ => inferInstanceAs (Decidable (windowMs spec = st.win (ref.key spec.algo)))

end Gate
