import Gate.Proofs.ValidSpecs
import Gate.Spec.Auth

/-! The key pattern is applied twice: by the edge to the key a caller sends, by the hub to the
subjects the edge sends on, which are hashes and a constant. The two agree only on patterns that
match those as well. -/

namespace Gate

theorem hexByte_alnum {b : UInt8} {c : Char} (h : c ∈ hexByte b) :
    Config.isLower c = true ∧ c ≤ 'f' ∨ Config.isDigit c = true := by
  have hd : ∀ n < 16, (Config.isLower n.digitChar = true ∧ n.digitChar ≤ 'f') ∨ Config.isDigit n.digitChar = true := by
    decide
  have hb : b.toNat < 256 := b.toNat_lt
  rcases List.mem_pair.mp h with rfl | rfl
  · exact hd _ (by omega)
  · exact hd _ (by omega)

theorem hash_chars (sum : String → Vector UInt8 32) (raw : String) {c : Char} (h : c ∈ (Keys.hash sum raw).toList) :
    Config.isLower c = true ∧ c ≤ 'f' ∨ Config.isDigit c = true := by
  rw [Keys.hash, String.toList_ofList, List.mem_flatMap] at h
  obtain ⟨b, -, hc⟩ := h
  exact hexByte_alnum hc

theorem hash_length (sum : String → Vector UInt8 32) (raw : String) : (Keys.hash sum raw).toList.length = 64 := by
  rw [Keys.hash, String.toList_ofList]
  have hlen : ∀ bs : List UInt8, (bs.flatMap hexByte).length = 2 * bs.length := by
    intro bs
    induction bs with
    | nil => rfl
    | cons b bs ih =>
      rw [List.flatMap_cons, List.length_append, ih, List.length_cons]
      change 2 + 2 * bs.length = _
      omega
  rw [hlen, Vector.length_toList]

namespace Edge

section
variable {lib : Library} {a : AuthEnv} {env : HubEnv} {cfg : Types.GatewayConfig} {m : String → Bool}

theorem validKey_eq (hm : lib.compileRegexp (keyPattern cfg) = .ok m) (key : String) :
    validKey lib cfg key = m key := by
  unfold validKey
  rw [hm]

theorem hub_validKey_eq (henv : env.matchPattern = matchString lib)
    (hm : lib.compileRegexp (keyPattern cfg) = .ok m) (subject : String) :
    Gate.validKey env cfg.limiting subject = m subject := by
  change env.matchPattern (keyPattern cfg) subject = m subject
  rw [henv, matchString, hm]

/-- The pattern matches every subject of the request: the key's hash and, where a limit counts
them, the client address's hash and the service-wide subject. -/
structure Matched (m : String → Bool) (sum : String → Vector UInt8 32) (st : RequestState) (raw : String) : Prop where
  key : m (Keys.hash sum raw) = true
  clientIP : ∀ l ∈ st.svc.limits, l.per = Types.perClientIP → m (Keys.hash sum ("ip:" ++ st.clientIP)) = true
  service : ∀ l ∈ st.svc.limits, l.per = Types.perService → m Types.serviceSubject = true

theorem mem_sent {policy : Types.EdgeRuntimePolicy} {r : HTTPRequest} {st : RequestState} {subject : String} :
    subject ∈ sent a policy r st ↔ subject = st.key ∨
      ∃ l ∈ st.svc.limits, subject = (limitCheck (Keys.hash a.sum) st (baseCheck policy r st) l).key := by
  have hbase : (baseCheck policy r st).key = st.key := rfl
  simp only [sent, checks, List.map_cons, List.map_map, List.mem_cons, List.mem_map, Function.comp_apply, hbase]
  constructor
  · rintro (h | h | ⟨l, hl, h⟩)
    · exact .inl h
    · exact .inl h
    · exact .inr ⟨l, hl, h.symm⟩
  · rintro (h | ⟨l, hl, h⟩)
    · exact .inl h
    · exact .inr (.inr ⟨l, hl, h.symm⟩)

end

/-- A matcher for `^[A-Za-z0-9_]{3,128}$`. -/
def defaultMatch (s : String) : Bool :=
  decide (3 ≤ s.toList.length) && decide (s.toList.length ≤ 128) &&
    s.toList.all fun c => Config.isAlnum c || c = '_'

/-- The default pattern matches every subject, so the two sides agree under it. -/
theorem default_pattern_matched (sum : String → Vector UInt8 32) (st : RequestState) (raw : String) :
    Matched defaultMatch sum st raw := by
  have hhash : ∀ s, defaultMatch (Keys.hash sum s) = true := by
    intro s
    simp only [defaultMatch, hash_length, Bool.and_eq_true, List.all_eq_true]
    refine ⟨by decide, fun c hc => ?_⟩
    rcases hash_chars sum s hc with ⟨h, -⟩ | h <;> simp [Config.isAlnum, h]
  exact ⟨hhash raw, fun _ _ _ => hhash _, fun _ _ _ => by decide⟩

/-- `^` followed by letters, digits and underscores, which match themselves. -/
def literalPattern (pattern : String) : Except String (String → Bool) :=
  match pattern.toList with
  | '^' :: cs =>
    if cs.all fun c => Config.isAlnum c || c = '_' then .ok fun s => cs.isPrefixOf s.toList
    else .error "not a literal"
  | _ => .error "not anchored"

def literalLibrary : Library := { Config.plainLibrary with compileRegexp := literalPattern }

/-- Keys must look like the ones the gateway issues. -/
def issuedKeysFile : Config.File :=
  { Config.ordersFile { requests := 100 } with runtime := { hub := { apiKeyPattern := "^gk_" } } }

def literalHub : HubEnv := { Config.oneKeyHub with matchPattern := matchString literalLibrary }

/-- An edge that knows no tier, with a hash that is always zero. -/
def zeroAuth : AuthEnv where
  lib := literalLibrary
  sum _ := Vector.replicate 32 0
  tiers _ _ := none
  stale _ _ _ := none
  verify _ _ := none

/-- Every key passes. -/
def openKeysFile : Config.File :=
  { Config.ordersFile { requests := 100 } with runtime := { hub := { apiKeyPattern := "^" } } }

def keyState (raw : String) : RequestState where
  scope := "v1"
  service := "orders"
  svc := Config.compileService (Config.ordersService { requests := 100 })
  pfx := none
  key := Keys.hash zeroAuth.sum raw
  tier := Config.compileTier "free" { requests := 100 } .unset
  org := ""
  clientIP := "10.0.0.1"

end Edge

end Gate
