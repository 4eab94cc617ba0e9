import Gate.Spec.Runtime
import Gate.Spec.TtlCache

/-! The edge's response cache (`packages/edge/cache.go`), over the in-process store. A cached response
is kept as such and not as its JSON text; `size` is the length of that text. -/

namespace Gate

namespace Edge

/-! Keys. -/

inductive CacheToken where
  | path | query | apiKey | encoding | method
  deriving DecidableEq, Repr

inductive CacheTemplatePart where
  | literal (text : String)
  | token (t : CacheToken)
  deriving DecidableEq, Repr

def tokenNames : List (String × CacheToken) :=
  [("path", .path), ("query", .query), ("key", .apiKey), ("enc", .encoding), ("method", .method)]

/-- `strings.EqualFold` with an ASCII word without `s`. -/
def equalFold (a b : List Char) : Bool := a.map Char.toLower = b.map Char.toLower

/-- The token at the start of the text and the length of its name, the dollar included. -/
def matchCacheToken (s : List Char) : Option (CacheToken × ℕ) :=
  tokenNames.findSome? fun (name, token) =>
    let n := name.length + 1
    if n ≤ s.length ∧ equalFold ((s.take n).drop 1) name.toList then some (token, n) else none

/-- The loop of `compileCacheTemplate`, for as many turns as there are characters: each turn takes one. -/
def templateParts : ℕ → List Char → List CacheTemplatePart
  | 0, _ => []
  | _, [] => []
  | n + 1, tpl@(_ :: _) =>
    let before := tpl.takeWhile (· ≠ '$')
    match tpl.dropWhile (· ≠ '$') with
    | [] => [.literal (String.ofList tpl)]
    | rest@(_ :: tail) =>
      (if before = [] then [] else [.literal (String.ofList before)]) ++
        match matchCacheToken rest with
        | none => .literal "$" :: templateParts n tail
        | some (t, size) => .token t :: templateParts n (rest.drop size)

def compileCacheTemplate (tpl : String) : List CacheTemplatePart :=
  let tpl := if tpl = "" then "$method:$path" else tpl
  templateParts tpl.length tpl.toList

/-- What a request's key is made from. -/
structure CacheRequest where
  method : String
  path : String
  /-- `URL.Query().Encode()` -/
  query : String
  acceptEncoding : String
  apiKey : String
  deriving DecidableEq

def CacheTemplatePart.render (r : CacheRequest) : CacheTemplatePart → String
  | .literal text => text
  | .token .path => r.path
  | .token .method => r.method
  | .token .encoding => r.acceptEncoding
  | .token .apiKey => r.apiKey
  | .token .query => r.query

/-- `fnv.New64a`. -/
def fnv64a (data : List UInt8) : UInt64 := data.foldl (fun h b => (h ^^^ b.toUInt64) * 1099511628211) 14695981039346656037

/-- `strconv.FormatUint` to base 16. -/
def hexText (n : UInt64) : String := String.ofList (Nat.toDigits 16 n.toNat)

def generateCacheKey (plan : List CacheTemplatePart) (r : CacheRequest) : String :=
  "c:" ++ r.path ++ ":" ++ hexText (fnv64a (plan.flatMap fun part => (part.render r).toUTF8.data.toList))

/-- `strings.TrimPrefix` of one slash. -/
def trimSlash (s : String) : String :=
  match s.toList with
  | '/' :: rest => String.ofList rest
  | _ => s

/-- The start of the keys of a prefix's responses, or of one of its services'. -/
def scopePattern (pfx service : String) : String :=
  "c:/" ++ trimSlash pfx ++ (if service = "" then "" else "/" ++ service)

/-- The first two segments of a path. -/
def splitRoute (path : String) : Option (String × String) :=
  let rest := (trimSlash path).toList
  let scope := rest.takeWhile (· ≠ '/')
  match rest.dropWhile (· ≠ '/') with
  | [] => none
  | _ :: rest =>
    let service := rest.takeWhile (· ≠ '/')
    if scope = [] ∨ service = [] then none else some (String.ofList scope, String.ofList service)

/-! Responses. -/

structure CachedResponse where
  statusCode : ℤ
  contentType : String
  body : List UInt8
  deriving DecidableEq, Repr

/-- The statuses a response is cached with. -/
def cacheableStatus (code : ℤ) : Bool := code ∈ [200, 203, 204, 300, 301, 308, 404, 405, 410, 414, 501]

/-- What the handlers after the cache do to the response. -/
inductive WriterCall where
  | writeHeader (code : ℤ)
  | write (b : List UInt8)
  deriving DecidableEq

structure CacheWriter where
  status : ℤ
  buf : List UInt8
  limit : ℤ
  overflow : Bool

namespace CacheWriter

def new (limit : ℤ) : CacheWriter := ⟨0, [], limit, false⟩

def writeHeader (w : CacheWriter) (code : ℤ) : CacheWriter :=
  if w.status = 0 ∧ 200 ≤ code then { w with status := code } else w

def write (w : CacheWriter) (b : List UInt8) : CacheWriter :=
  let w := if w.status = 0 then { w with status := 200 } else w
  if w.overflow then w
  else if w.limit < ((w.buf.length + b.length : ℕ) : ℤ) then { w with overflow := true, buf := [] }
  else { w with buf := w.buf ++ b }

def call (w : CacheWriter) : WriterCall → CacheWriter
  | .writeHeader code => w.writeHeader code
  | .write b => w.write b

end CacheWriter

/-- What came of a request that was not answered from the cache. -/
structure Answer where
  calls : List WriterCall
  contentType : String
  /-- the response stands in for an upstream that failed -/
  upstreamFailed : Bool
  deriving DecidableEq

def Answer.copy (limit : ℤ) (a : Answer) : CacheWriter := a.calls.foldl CacheWriter.call (.new limit)

/-- The response `serveFromCache` stores. -/
def Answer.cached (limit : ℤ) (a : Answer) : Option CachedResponse :=
  let w := a.copy limit
  if cacheableStatus w.status && !w.overflow && !a.upstreamFailed then some ⟨w.status, a.contentType, w.buf⟩ else none

/-! The cache in service. Requests come and go at any time, a goroutine that invalidates takes one shard
at a time, and time passes. -/

/-- A request that is looked up under a service's settings (`CacheManager`). -/
structure Lookup extends CacheRequest where
  cfg : Types.CacheConfig
  deriving DecidableEq

def Lookup.key (l : Lookup) : String := generateCacheKey (compileCacheTemplate l.cfg.cacheKey) l.toCacheRequest

structure CachedValue where
  resp : CachedResponse
  /-- the place in the log of the answer it was made from -/
  answer : ℕ

/-- A call of `Invalidate` that is under way. -/
structure Sweep where
  pfx : String
  service : String
  /-- shards behind it -/
  done : ℕ
  /-- how long the log was when it began -/
  begun : ℕ
  deriving DecidableEq

inductive CacheRecord where
  | answered (l : Lookup) (a : Answer) (now : ℤ)
  | hit (l : Lookup) (resp : CachedResponse) (answer : ℕ) (now : ℤ)
  | invalidated (pfx service : String) (begun : ℕ)
  deriving DecidableEq

structure Responses where
  cache : TtlCache CachedValue
  now : ℤ
  /-- requests in the handlers after the cache -/
  waiting : List Lookup
  sweeps : List Sweep
  log : List CacheRecord

inductive ResponsesAct where
  | arrive (r : CacheRequest) (cfg : Option Types.CacheConfig)
  | finish (i : ℕ) (a : Answer) (ord : ℕ → CacheOrder CachedValue)
  /-- the handler panics, as it does when the upstream's body breaks off -/
  | abort (i : ℕ)
  | invalidate (pfx service : String)
  | sweep (i : ℕ) (ord : CacheOrder CachedValue)
  | tick (d : ℕ)

namespace Responses

def start (budget now : ℤ) : Responses := ⟨newTTLCache CachedValue budget, now, [], [], []⟩

def checkCache (w : Responses) (l : Lookup) : Option CachedValue :=
  (w.cache.get l.key w.now).bind fun (v, _, fresh) => if fresh && v.resp.statusCode ≠ 0 then some v else none

def serve (w : Responses) (l : Lookup) : Responses :=
  match w.checkCache l with
  | some v => { w with log := w.log ++ [.hit l v.resp v.answer w.now] }
  | none => { w with waiting := w.waiting ++ [l] }

def finish (limit : ℤ) (size : CachedResponse → ℤ) (w : Responses) (l : Lookup) (a : Answer)
    (ord : ℕ → CacheOrder CachedValue) : Responses :=
  let log := w.log ++ [.answered l a w.now]
  match a.cached limit with
  | none => { w with log := log }
  | some resp =>
    { w with
      log := log
      cache := w.cache.set l.key ⟨resp, w.log.length⟩ l.cfg.ttl (size resp + l.key.utf8ByteSize) w.now ord }

/-- The next shard of an invalidation, or its end. -/
def sweepOn (w : Responses) (i : ℕ) (s : Sweep) (ord : CacheOrder CachedValue) : Responses :=
  if h : s.done < cacheShards then
    { w with
      cache := { w.cache with
        shards := Function.update w.cache.shards ⟨s.done, h⟩
          ((w.cache.shards ⟨s.done, h⟩).deleteFunc (fun k => (scopePattern s.pfx s.service).toList.isPrefixOf k.toList) ord) }
      sweeps := w.sweeps.set i { s with done := s.done + 1 } }
  else { w with sweeps := w.sweeps.eraseIdx i, log := w.log ++ [.invalidated s.pfx s.service s.begun] }

def step (limit : ℤ) (size : CachedResponse → ℤ) (w : Responses) : ResponsesAct → Option Responses
  | .arrive r (some cfg) => if r.method = "GET" ∧ cfg.enabled then some (w.serve ⟨r, cfg⟩) else some w
  | .arrive _ none => some w
  | .finish i a ord => (w.waiting[i]?).map fun l => { w with waiting := w.waiting.eraseIdx i }.finish limit size l a ord
  | .abort i => (w.waiting[i]?).map fun _ => { w with waiting := w.waiting.eraseIdx i }
  | .invalidate pfx service => some { w with sweeps := w.sweeps ++ [⟨pfx, service, 0, w.log.length⟩] }
  | .sweep i ord => (w.sweeps[i]?).map fun s => w.sweepOn i s ord
  | .tick d => some { w with now := w.now + d }

end Responses

end Edge

end Gate
