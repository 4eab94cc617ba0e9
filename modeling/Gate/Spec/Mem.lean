import Gate.Spec.Ledger

/-! `Mem`, the in-process ledger (`packages/ledger/mem.go`, and `Lend`/`Credit` from
`region.go`). The mutex makes every call atomic, so a call is a function of the state and
of the clock reading it takes. Counters and arrival times are whole numbers and are kept
as integers; the arithmetic on rates and window fractions is exact. -/

namespace Gate

/-- The order in which Go's `range` visits a map: any permutation of its entries. -/
structure RangeOrder where
  visit : List (String × ℤ) → List (String × ℤ)
  perm : ∀ l, (visit l).Perm l

structure Mem where
  /-- counters, arrival times, allocations and recorded loans -/
  vals : String → Option ℤ
  edges : String → List (String × ℤ)
  deduped : String → Bool

def Mem.new : Mem := ⟨fun _ => none, fun _ => [], fun _ => false⟩

def Mem.getInt (m : Mem) (key : String) (dflt : ℤ) : ℤ := (m.vals key).getD dflt

def Mem.setVal (m : Mem) (key : String) (v : ℤ) : Mem :=
  { m with vals := Function.update m.vals key (some v) }

/-- `m.vals[key] += d`: a missing key counts from zero. -/
def Mem.addVal (m : Mem) (key : String) (d : ℤ) : Mem := m.setVal key (m.getInt key 0 + d)

def Mem.mark (m : Mem) (key : String) : Mem :=
  { m with deduped := Function.update m.deduped key true }

/-- `Mem.Used`, for a quota key and a window. -/
def Mem.used (m : Mem) (key : String) (wid : ℤ) : ℤ := m.getInt (winKey key wid) 0

/-- What `Grant` works out about the quota itself: the locals of its first switch. -/
structure Measure where
  avail : ℤ
  wid : ℤ
  reset : ℤ
  expires : ℤ
  tat : ℤ
  prev : ℤ
  cur : ℤ
  f : ℚ
  key : String
  /-- `in.limit`, or the region's allocation in its place -/
  limit : ℤ

def Mem.measureBucket (m : Mem) (inp : GrantInput) (now : ℤ) : Measure :=
  let T : ℚ := 1000 / inp.rate
  let tau : ℚ := inp.limit * T
  let tat := max (m.getInt inp.key now) now
  { avail := ⌊(now + tau - tat) / T⌋, wid := 0, reset := 0, expires := inp.ttl, tat := tat,
    prev := 0, cur := 0, f := 0, key := inp.key, limit := inp.limit }

def Mem.measureWindow (m : Mem) (inp : GrantInput) (now : ℤ) : Measure :=
  let wid := now.tdiv inp.win
  let reset := (wid + 1) * inp.win - now
  let limit := if 0 ≤ inp.allocBase then inp.allocBase + m.getInt (allocKey inp.key wid) 0
    else inp.limit
  let cur := m.getInt (winKey inp.key wid) 0
  let sliding := inp.algo = .slidingWindow
  let prev := if sliding then m.getInt (winKey inp.key (wid - 1)) 0 else 0
  let f : ℚ := if sliding then ((now - wid * inp.win : ℤ) : ℚ) / inp.win else 0
  let used := if sliding then cur + ⌈(prev : ℚ) * (1 - f)⌉ else cur
  { avail := limit - used, wid := wid, reset := reset, expires := reset, tat := 0,
    prev := prev, cur := cur, f := f, key := winKey inp.key wid, limit := limit }

def Mem.measure (m : Mem) (inp : GrantInput) (now : ℤ) : Measure :=
  if inp.algo = .tokenBucket then m.measureBucket inp now else m.measureWindow inp now

/-- The enclosing quota's part: what is left after it, and which of the two binds. -/
structure Nested where
  avail : ℤ
  expires : ℤ
  /-- "" without an enclosing quota -/
  pkey : String
  pwid : ℤ
  preset : ℤ
  parentBinds : Bool

def Mem.nest (m : Mem) (inp : GrantInput) (ms : Measure) (now : ℤ) : Nested :=
  if inp.parentKey = "" then ⟨ms.avail, ms.expires, "", 0, 0, false⟩
  else
    let pwid := now.tdiv inp.pwin
    let pkey := winKey inp.parentKey pwid
    let preset := (pwid + 1) * inp.pwin - now
    let pavail := inp.plimit - m.getInt pkey 0
    { avail := if pavail < ms.avail then pavail else ms.avail
      expires := min ms.expires preset
      pkey := pkey
      pwid := pwid
      preset := preset
      parentBinds := pavail < ms.avail }

/-- One turn of the loop over the active edges: count a live one; drop a stale one while
the set is large. -/
def countEdge (now activeMs : ℤ) (acc : ℤ × List (String × ℤ)) (e : String × ℤ) :
    ℤ × List (String × ℤ) :=
  if e.2 > now - activeMs then (acc.1 + 1, acc.2)
  else if 64 < acc.2.length then (acc.1, acc.2.filter fun x => x.1 ≠ e.1)
  else acc

/-- `set[edge] = now`. -/
def touchEdge (set : List (String × ℤ)) (edge : String) (now : ℤ) : List (String × ℤ) :=
  set.filter (fun x => x.1 ≠ edge) ++ [(edge, now)]

/-- The active edges to split between, near the end of a quota; otherwise one. -/
def Mem.countEdges (m : Mem) (ord : RangeOrder) (inp : GrantInput) (avail now : ℤ) : ℤ × Mem :=
  if inp.edge ≠ "" ∧ avail < 64 * inp.target then
    let set := touchEdge (m.edges inp.key) inp.edge now
    let (n, set) := (ord.visit set).foldl (countEdge now inp.activeMs) (0, set)
    (n, { m with edges := Function.update m.edges inp.key set })
  else (1, m)

def retryMs (inp : GrantInput) (ms : Measure) (ne : Nested) (now : ℤ) : ℤ :=
  if ne.parentBinds then min (max (inp.pwin.tdiv 10) 500) ne.preset
  else if inp.algo = .tokenBucket then
    let T : ℚ := 1000 / inp.rate
    max ⌈(ms.tat : ℚ) + T - ms.limit * T - now⌉ 1
  else if inp.algo = .slidingWindow ∧ 0 < ms.prev ∧ ms.cur < ms.limit then
    let fneed : ℚ := 1 - ((ms.limit - 1 - ms.cur : ℤ) : ℚ) / ms.prev
    min (max ⌈(fneed - ms.f) * inp.win⌉ 10) ms.reset
  else min (max (inp.win.tdiv 10) 500) ms.reset

/-- The size of a grant when `avail` is positive: the target, or an even split of what is
left between the `n` active edges. -/
def grantSize (avail n target : ℤ) : ℤ :=
  min (if avail < n * target then (avail + n - 1).tdiv n else target) avail

/-- The arrival time after a grant of `n` tokens. -/
def nextTat (inp : GrantInput) (tat n : ℤ) : ℤ := ⌈(tat : ℚ) + n * (1000 / inp.rate)⌉

/-- Debits a grant from the quota and from the enclosing one. -/
def Mem.debit (m : Mem) (inp : GrantInput) (ms : Measure) (ne : Nested) (n : ℤ) : Mem :=
  let m := if inp.algo = .tokenBucket then m.setVal ms.key (nextTat inp ms.tat n)
    else m.addVal ms.key n
  if ne.pkey ≠ "" then m.addVal ne.pkey n else m

/-- `Grant` after `prepare`. -/
def Mem.grantOn (m : Mem) (ord : RangeOrder) (now : ℤ) (inp : GrantInput) : Grant × Mem :=
  let ms := m.measure inp now
  let ne := m.nest inp ms now
  let (n, m) := m.countEdges ord inp ne.avail now
  if ne.avail ≤ 0 then
    let reset := if inp.algo = .tokenBucket then ms.tat - now else ms.reset
    (result 0 0 ms.wid ne.expires reset (retryMs inp ms ne now) n ne.pwid, m)
  else
    let grant := grantSize ne.avail n inp.target
    let reset := if inp.algo = .tokenBucket then nextTat inp ms.tat grant - now else ms.reset
    (result grant (ne.avail - grant) ms.wid ne.expires reset 0 n ne.pwid, m.debit inp ms ne grant)

def Mem.grant (m : Mem) (ord : RangeOrder) (now : ℤ) (ref : Ref) (spec : Spec)
    (args : GrantArgs) : Except Err Grant × Mem :=
  match prepare ref spec args with
  | .error e => (.error e, m)
  | .ok inp => let (g, m) := m.grantOn ord now inp; (.ok g, m)

/-- Gives tokens back to a window counter, never below zero; negative tokens are added. -/
def Mem.credit (m : Mem) (key : String) (tokens : ℤ) : Mem :=
  let used := m.getInt key 0
  m.setVal key (used - min tokens used)

/-- What one item of `Return` does once it is known not to be a repeat. -/
def Mem.applyReturn (m : Mem) (now : ℤ) (inp : ReturnInput) : Mem :=
  let m :=
    if inp.algo = .tokenBucket then
      let tat := max (m.getInt inp.key now) now
      m.setVal inp.key (max ⌈(tat : ℚ) - inp.tokens * (1000 / inp.rate)⌉ now)
    else if now.tdiv inp.win = inp.wid then m.credit (winKey inp.key inp.wid) inp.tokens
    else m
  if inp.parentKey ≠ "" ∧ now.tdiv inp.pwin = inp.pwid then
    m.credit (winKey inp.parentKey inp.pwid) inp.tokens
  else m

def Mem.returnOne (m : Mem) (now : ℤ) (inp : ReturnInput) : Mem :=
  if inp.dedupeKey ≠ "" then
    if m.deduped inp.dedupeKey then m else (m.mark inp.dedupeKey).applyReturn now inp
  else m.applyReturn now inp

/-- `Mem.Return`: a bad item stops the loop, with the items before it applied. -/
def Mem.ret (m : Mem) (now : ℤ) (dedupe : String) : List Ret → Except Err Unit × Mem
  | [] => (.ok (), m)
  | r :: rs =>
    match prepareReturn r dedupe with
    | .error e => (.error e, m)
    | .ok inp => (m.returnOne now inp).ret now dedupe rs

def lendKey (base id : String) : String := base ++ ":lend:" ++ id

def creditKey (base id : String) : String := base ++ ":credit:" ++ id

/-- What a region keeps back: the margin asked for, or its pace for the rest of the window. -/
def lendMargin (used win elapsed margin : ℤ) : ℤ :=
  max margin ⌈((used * (win - elapsed) : ℤ) : ℚ) / (max elapsed 1 : ℤ)⌉

/-- `Mem.Lend` reads the clock twice, for the window check and for the pace. -/
def Mem.lend (m : Mem) (now now' : ℤ) (ref : Ref) (spec : Spec) (base wid want margin : ℤ)
    (id : String) : Except Err ℤ × Mem :=
  if spec.algo.or ≠ .fixedWindow then (.error .badSpec, m)
  else
    let win := windowMs spec
    let key := ref.key spec.algo
    if now.tdiv win ≠ wid then (.ok 0, m)
    else match m.vals (lendKey key id) with
    | some v => (.ok v, m)
    | none =>
      let alloc := base + m.getInt (allocKey key wid) 0
      let used := m.getInt (winKey key wid) 0
      let give := max (min want (alloc - used - lendMargin used win (now' - wid * win) margin)) 0
      (.ok give, (m.addVal (allocKey key wid) (-give)).setVal (lendKey key id) give)

def Mem.creditAlloc (m : Mem) (now : ℤ) (ref : Ref) (spec : Spec) (wid amount : ℤ)
    (id : String) : Except Err Bool × Mem :=
  if spec.algo.or ≠ .fixedWindow then (.error .badSpec, m)
  else
    let key := ref.key spec.algo
    if now.tdiv (windowMs spec) ≠ wid then (.ok false, m)
    else if m.deduped (creditKey key id) then (.ok false, m)
    else (.ok true, (m.mark (creditKey key id)).addVal (allocKey key wid) amount)

/-- `Mem.Allocation`: what peers lent this region for a window minus what it lent them. -/
def Mem.allocation (m : Mem) (ref : Ref) (spec : Spec) (wid : ℤ) : ℤ :=
  m.getInt (allocKey (ref.key spec.algo) wid) 0

end Gate
