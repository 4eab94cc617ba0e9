import Gate.Lib.Threads
import Gate.Proofs.ConfigDiff
import Gate.Proofs.TtlCache
import Gate.Sanity.Keys
import Gate.Spec.ResponseCache

/-! What the response cache answers with: a hit is the answer that an earlier request under the same
key was given, within its time to live, and stored after every invalidation of its scope began. -/

namespace Gate

open Conc

/-! Entries of the store. -/

section Store

variable {V : Type} {c : TtlCache V} {s : CacheShard V} {k key : String} {e : CacheEntry V}

def TtlCache.find (c : TtlCache V) (key : String) : Option (CacheEntry V) := (c.shard key).entries.lookup key

/-- After `set` there is the new entry, and else only what was there. -/
theorem TtlCache.find_set {v : V} {ttl cost now : ℤ} {ord : ℕ → CacheOrder V} (h : (c.set key v ttl cost now ord).find k = some e) :
    (k = key ∧ e.value = v ∧ e.storedAt = now ∧ e.expires = now + ttl) ∨ c.find k = some e := by
  unfold TtlCache.set at h
  simp only at h
  split_ifs at h with hcost
  · exact .inr h
  · by_cases hshard : shardOf k = shardOf key
    · have hin : ((c.shard key).set c.shardCost key v ttl (max cost 1) now ord).entries.lookup k = some e := by
        simpa [TtlCache.find, TtlCache.shard, hshard] using h
      by_cases hk : k = key
      · subst hk
        rw [CacheShard.set, AList.lookup_insert] at hin
        obtain rfl := Option.some.inj hin
        exact .inl ⟨rfl, rfl, rfl, rfl⟩
      · rw [CacheShard.set, AList.lookup_insert_ne hk, CacheShard.cleared] at hin
        right
        have hold := CacheShard.lookup_makeRoom hin
        rw [TtlCache.find, TtlCache.shard, hshard]
        exact hold
    · right
      simpa [TtlCache.find, TtlCache.shard, Function.update_of_ne hshard] using h

theorem CacheShard.lookup_foldl_deleteIf {del : String → Bool} (l : List (Sigma fun _ : String => CacheEntry V)) (s : CacheShard V)
    (h : (l.foldl (CacheShard.deleteIf del) s).entries.lookup k = some e) :
    s.entries.lookup k = some e ∧ ∀ x ∈ l, x.1 = k → del k = false := by
  induction l generalizing s with
  | nil => exact ⟨h, by simp⟩
  | cons x l ih =>
    obtain ⟨hk, hl⟩ := ih _ h
    unfold CacheShard.deleteIf at hk
    split_ifs at hk with hdel
    · by_cases hx : x.1 = k
      · rw [← hx, AList.lookup_erase] at hk
        exact absurd hk (Option.some_ne_none e).symm
      · rw [AList.lookup_erase_ne (Ne.symm hx)] at hk
        exact ⟨hk, List.forall_mem_cons.mpr ⟨fun he => absurd he hx, hl⟩⟩
    · exact ⟨hk, List.forall_mem_cons.mpr ⟨fun he => he ▸ Bool.eq_false_iff.mpr hdel, hl⟩⟩

theorem CacheShard.lookup_deleteFunc {del : String → Bool} {ord : CacheOrder V}
    (h : (s.deleteFunc del ord).entries.lookup k = some e) : s.entries.lookup k = some e ∧ del k = false := by
  obtain ⟨hk, hdel⟩ := lookup_foldl_deleteIf _ s h
  have hmem : ⟨k, e⟩ ∈ ord.visit s.entries.entries := (ord.perm _).mem_iff.mpr (AList.mem_lookup_iff.mp hk)
  exact ⟨hk, hdel _ hmem rfl⟩

end Store

namespace Edge

/-! A copy that did not overflow is what the client got. -/

/-- The status the client sees: the first one sent, or 200 with the first bytes. -/
def statusOf : List WriterCall → ℤ
  | [] => 0
  | .writeHeader code :: calls => if 200 ≤ code then code else statusOf calls
  | .write _ :: _ => 200

/-- The body the client gets. -/
def bodyOf (calls : List WriterCall) : List UInt8 :=
  calls.flatMap fun
    | .writeHeader _ => []
    | .write b => b

namespace CacheWriter

variable {w : CacheWriter}

theorem status_writeHeader (code : ℤ) (calls : List WriterCall) :
    (if (w.writeHeader code).status = 0 then statusOf calls else (w.writeHeader code).status) =
      if w.status = 0 then statusOf (.writeHeader code :: calls) else w.status := by
  unfold writeHeader
  rw [statusOf]
  by_cases hw : w.status = 0
  · by_cases hc : 200 ≤ code
    · simp [hw, hc, show code ≠ 0 by omega]
    · simp [hw, hc]
  · simp [hw]

theorem write_eq (b : List UInt8) : w.write b =
    { w with
      status := if w.status = 0 then 200 else w.status
      buf := if w.overflow then w.buf else if w.limit < ((w.buf.length + b.length : ℕ) : ℤ) then [] else w.buf ++ b
      overflow := w.overflow || decide (w.limit < ((w.buf.length + b.length : ℕ) : ℤ)) } := by
  obtain ⟨status, buf, limit, overflow⟩ := w
  unfold write
  by_cases hs : status = 0
  · cases overflow with
    | true => simp [hs]
    | false =>
      simp only [hs, if_true]
      split_ifs <;> simp_all
  · cases overflow with
    | true => simp [hs]
    | false =>
      simp only [hs, if_false]
      split_ifs <;> simp_all

theorem limit_writeHeader (code : ℤ) : (w.writeHeader code).limit = w.limit := by
  unfold writeHeader
  split_ifs <;> rfl

theorem write_kept {b : List UInt8} (h : (w.write b).overflow = false) :
    w.overflow = false ∧ (w.write b).buf = w.buf ++ b ∧ ((w.buf ++ b).length : ℤ) ≤ w.limit := by
  rw [write_eq] at h ⊢
  obtain ⟨hover, hfits⟩ := Bool.or_eq_false_iff.mp h
  have hlen := of_decide_eq_false hfits
  refine ⟨hover, ?_, ?_⟩
  · simp only [hover, hlen, if_false, Bool.false_eq_true]
  · rw [List.length_append]
    exact not_lt.mp hlen

/-- Without an overflow the copy has the status and all of the bytes. -/
theorem foldl_call (calls : List WriterCall) (w : CacheWriter) (hw : (w.buf.length : ℤ) ≤ max w.limit 0)
    (h : (calls.foldl call w).overflow = false) :
    w.overflow = false ∧ (calls.foldl call w).status = (if w.status = 0 then statusOf calls else w.status) ∧
      (calls.foldl call w).buf = w.buf ++ bodyOf calls ∧ ((w.buf ++ bodyOf calls).length : ℤ) ≤ max w.limit 0 := by
  induction calls generalizing w with
  | nil =>
    refine ⟨h, ?_, (List.append_nil _).symm, by simpa [bodyOf] using hw⟩
    split_ifs with h0
    · exact h0
    · rfl
  | cons x calls ih =>
    cases x with
    | writeHeader code =>
      have hsame : (w.writeHeader code).buf = w.buf ∧ (w.writeHeader code).overflow = w.overflow := by
        unfold writeHeader
        split_ifs <;> exact ⟨rfl, rfl⟩
      have hfit : ((w.writeHeader code).buf.length : ℤ) ≤ max (w.writeHeader code).limit 0 := by
        rw [hsame.1, limit_writeHeader]
        exact hw
      obtain ⟨hover, hstatus, hbuf, hlen⟩ := ih (w.writeHeader code) hfit h
      rw [limit_writeHeader] at hlen
      rw [hsame.1] at hbuf hlen
      exact ⟨hsame.2 ▸ hover, hstatus.trans (status_writeHeader code calls), hbuf, hlen⟩
    | write b =>
      have hlimit : (w.write b).limit = w.limit := by rw [write_eq]
      have hfit : ((w.write b).buf.length : ℤ) ≤ max (w.write b).limit 0 := by
        rw [hlimit, write_eq]
        dsimp only
        split_ifs with hover hfull
        · exact hw
        · exact le_max_right _ _
        · rw [List.length_append]
          exact (not_lt.mp hfull).trans (le_max_left _ _)
      obtain ⟨hover, hstatus, hbuf, hlen⟩ := ih (w.write b) hfit h
      obtain ⟨hover, happend, -⟩ := write_kept hover
      rw [hlimit] at hlen
      rw [happend, List.append_assoc] at hbuf hlen
      refine ⟨hover, hstatus.trans ?_, hbuf, hlen⟩
      rw [write_eq]
      dsimp only [statusOf]
      split_ifs <;> simp_all

end CacheWriter

/-- What is stored is what the client got. -/
theorem Answer.cached_eq {limit : ℤ} {a : Answer} {resp : CachedResponse} (h : a.cached limit = some resp) :
    resp = ⟨statusOf a.calls, a.contentType, bodyOf a.calls⟩ ∧ cacheableStatus resp.statusCode ∧ a.upstreamFailed = false ∧
      (resp.body.length : ℤ) ≤ max limit 0 := by
  unfold Answer.cached at h
  dsimp only at h
  split_ifs at h with hc
  obtain rfl := Option.some.inj h
  simp only [Bool.and_eq_true, Bool.not_eq_true'] at hc
  obtain ⟨⟨hstatus, hover⟩, hfailed⟩ := hc
  obtain ⟨-, hs, hb, hlen⟩ := CacheWriter.foldl_call a.calls (.new limit) (le_max_right _ _) hover
  have hcopy : (a.copy limit).status = statusOf a.calls ∧ (a.copy limit).buf = bodyOf a.calls := ⟨hs, hb⟩
  refine ⟨by rw [hcopy.1, hcopy.2], hstatus, hfailed, ?_⟩
  rw [hcopy.2]
  exact hlen

/-! Keys. -/

theorem digitChar_ne_colon {n : ℕ} (h : n < 16) : ':' ≠ n.digitChar := by
  interval_cases n <;> decide

theorem colon_notMem_hexText (n : UInt64) : ':' ∉ (hexText n).toList := by
  have digits : ∀ k : ℕ, ':' ∉ Nat.toDigits 16 k := by
    intro k
    induction k using Nat.strongRecOn with
    | ind k ih =>
      by_cases h : k < 16
      · rw [Nat.toDigits_of_lt_base h, List.mem_singleton]
        exact digitChar_ne_colon h
      · rw [Nat.toDigits_of_base_le (by decide) (by omega), List.mem_append, List.mem_singleton]
        rintro (hmem | hmem)
        · exact ih (k / 16) (by omega) hmem
        · exact digitChar_ne_colon (Nat.mod_lt k (by decide)) hmem
  rw [hexText, String.toList_ofList]
  exact digits _

/-- A key tells the path. -/
theorem path_of_generateCacheKey {plan plan' : List CacheTemplatePart} {r r' : CacheRequest}
    (h : generateCacheKey plan r = generateCacheKey plan' r') : r.path = r'.path := by
  have hstem := (snoc_colon_inj (colon_notMem_hexText _) (colon_notMem_hexText _) h).1
  exact String.toList_inj.mp (by simpa using congrArg String.toList hstem)

/-! The cache in service. -/

namespace Responses

variable {limit : ℤ} {size : CachedResponse → ℤ} {w : Responses} {log : List CacheRecord} {c : TtlCache CachedValue}

/-- The scope of an invalidation has the key. -/
def Covers (pfx service key : String) : Prop := (scopePattern pfx service).toList <+: key.toList

/-- An entry is what some request under its key was answered with, after the invalidations of its scope
that are through had begun. -/
structure Stored (limit : ℤ) (log : List CacheRecord) (now : ℤ) (key : String) (e : CacheEntry CachedValue) : Prop where
  made : ∃ l a, log[e.value.answer]? = some (.answered l a e.storedAt) ∧ l.key = key ∧ a.cached limit = some e.value.resp ∧
    e.expires = e.storedAt + l.cfg.ttl
  past : e.storedAt ≤ now
  outlives : ∀ (i : ℕ) pfx service begun, log[i]? = some (.invalidated pfx service begun) → Covers pfx service key →
    begun ≤ e.value.answer

/-- What an invalidation under way has cleared so far. -/
structure Sweeping (log : List CacheRecord) (c : TtlCache CachedValue) (s : Sweep) : Prop where
  begun : s.begun ≤ log.length
  cleared : ∀ key e, c.find key = some e → Covers s.pfx s.service key → (shardOf key : ℕ) < s.done → s.begun ≤ e.value.answer

/-- A hit in the log: what it was answered with, and that no invalidation through by then says
otherwise. -/
structure Replays (limit : ℤ) (log : List CacheRecord) (j : ℕ) (l : Lookup) (resp : CachedResponse) (answer : ℕ) (now : ℤ) : Prop where
  made : ∃ l' a t, answer < j ∧ log[answer]? = some (.answered l' a t) ∧ l'.key = l.key ∧ a.cached limit = some resp ∧
    t ≤ now ∧ now < t + l'.cfg.ttl
  outlives : ∀ i < j, ∀ pfx service begun, log[i]? = some (.invalidated pfx service begun) → Covers pfx service l.key → begun ≤ answer

structure Sound (limit : ℤ) (w : Responses) : Prop where
  stored : ∀ key e, w.cache.find key = some e → Stored limit w.log w.now key e
  sweeping : ∀ s ∈ w.sweeps, Sweeping w.log w.cache s
  replays : ∀ (j : ℕ) l resp answer now, w.log[j]? = some (.hit l resp answer now) → Replays limit w.log j l resp answer now
  through : ∀ (i : ℕ) pfx service begun, w.log[i]? = some (.invalidated pfx service begun) → begun ≤ i

theorem Sound.start (budget now : ℤ) : Sound limit (.start budget now) where
  stored _ e h := absurd h (Option.some_ne_none e).symm
  sweeping _ hs := absurd hs List.not_mem_nil
  replays _ _ _ _ _ h := absurd h (Option.some_ne_none _).symm
  through _ _ _ _ h := absurd h (Option.some_ne_none _).symm

theorem getElem?_before {α : Type} {l : List α} {x y : α} {i : ℕ} (h : l[i]? = some y) : (l ++ [x])[i]? = some y := by
  obtain ⟨hi, -⟩ := List.getElem?_eq_some_iff.mp h
  rw [List.getElem?_append_left hi]
  exact h

/-- A hit stays explained when the log grows. -/
theorem Replays.snoc {j : ℕ} {l : Lookup} {resp : CachedResponse} {answer : ℕ} {now : ℤ} (h : Replays limit log j l resp answer now)
    (hj : j ≤ log.length) (x : CacheRecord) : Replays limit (log ++ [x]) j l resp answer now := by
  obtain ⟨l', a, t, hlt, hget, hrest⟩ := h.made
  refine ⟨⟨l', a, t, hlt, getElem?_before hget, hrest⟩, fun i hi pfx service begun hrec => ?_⟩
  rw [List.getElem?_append_left (by omega)] at hrec
  exact h.outlives i hi pfx service begun hrec

/-- What a new record has to say of the cache. -/
def Tells (limit : ℤ) (w : Responses) : CacheRecord → Prop
  | .answered _ _ _ => True
  | .hit l resp answer now => Replays limit w.log w.log.length l resp answer now
  | .invalidated pfx service begun => begun ≤ w.log.length ∧
      ∀ key e, w.cache.find key = some e → Covers pfx service key → begun ≤ e.value.answer

theorem Sound.record (h : Sound limit w) (x : CacheRecord) (hx : Tells limit w x) : Sound limit { w with log := w.log ++ [x] } where
  stored key e he := by
    have hs := h.stored key e he
    obtain ⟨l, a, hget, hrest⟩ := hs.made
    refine ⟨⟨l, a, getElem?_before hget, hrest⟩, hs.past, fun i pfx service begun hrec hcov => ?_⟩
    rcases getElem?_concat_cases hrec with hold | ⟨-, rfl⟩
    · exact hs.outlives i pfx service begun hold hcov
    · exact hx.2 key e he hcov
  sweeping s hs := ⟨(h.sweeping s hs).begun.trans (by simp), (h.sweeping s hs).cleared⟩
  replays j l resp answer now hrec := by
    rcases getElem?_concat_cases hrec with hold | ⟨rfl, rfl⟩
    · obtain ⟨hj, -⟩ := List.getElem?_eq_some_iff.mp hold
      exact (h.replays j l resp answer now hold).snoc hj.le x
    · exact Replays.snoc hx le_rfl _
  through i pfx service begun hrec := by
    rcases getElem?_concat_cases hrec with hold | ⟨rfl, rfl⟩
    · exact h.through i pfx service begun hold
    · exact hx.1

theorem Sound.serve (h : Sound limit w) (l : Lookup) : Sound limit (w.serve l) := by
  unfold Responses.serve
  cases hc : w.checkCache l with
  | none => exact ⟨h.stored, h.sweeping, h.replays, h.through⟩
  | some v =>
    unfold checkCache at hc
    obtain ⟨⟨v', t, fresh⟩, hget, hv⟩ := Option.bind_eq_some_iff.mp hc
    obtain ⟨e, he, heq⟩ := Option.map_eq_some_iff.mp hget
    dsimp only at hv
    split_ifs at hv with hfresh
    obtain rfl := Option.some.inj hv
    simp only [Prod.mk.injEq] at heq
    obtain ⟨rfl, rfl, rfl⟩ := heq
    obtain ⟨hnow, -⟩ := Bool.and_eq_true_iff.mp hfresh
    have hs := h.stored l.key e he
    obtain ⟨l', a, hlog, hkey, hcached, hexp⟩ := hs.made
    obtain ⟨hlt, -⟩ := List.getElem?_eq_some_iff.mp hlog
    apply h.record
    refine ⟨⟨l', a, e.storedAt, hlt, hlog, hkey, hcached, hs.past, hexp ▸ of_decide_eq_true hnow⟩, ?_⟩
    intro i _ pfx service begun hrec hcov
    exact hs.outlives i pfx service begun hrec hcov

theorem Sound.finish (h : Sound limit w) (l : Lookup) (a : Answer) (ord : ℕ → CacheOrder CachedValue) :
    Sound limit (w.finish limit size l a ord) := by
  have hlog : Sound limit { w with log := w.log ++ [.answered l a w.now] } := h.record _ trivial
  unfold Responses.finish
  cases hc : a.cached limit with
  | none => exact hlog
  | some resp =>
    refine ⟨fun key e he => ?_, fun s hs => ?_, hlog.replays, hlog.through⟩
    · rcases TtlCache.find_set he with ⟨rfl, hvalue, hat, hexp⟩ | hold
      · -- the new entry: its answer is the last of the log
        refine ⟨⟨l, a, ?_, rfl, ?_, ?_⟩, ?_, ?_⟩
        · rw [hvalue, hat]
          exact List.getElem?_concat_length
        · rw [hvalue]
          exact hc
        · rw [hexp, hat]
        · rw [hat]
        · intro i pfx service begun hrec _
          rw [hvalue]
          rcases getElem?_concat_cases hrec with hold | ⟨-, heq⟩
          · obtain ⟨hi, -⟩ := List.getElem?_eq_some_iff.mp hold
            exact (h.through i pfx service begun hold).trans hi.le
          · exact absurd heq (by simp)
      · exact hlog.stored key e hold
    · refine ⟨(hlog.sweeping s hs).begun, fun key e he hcov hdone => ?_⟩
      rcases TtlCache.find_set he with ⟨rfl, hvalue, -, -⟩ | hold
      · rw [hvalue]
        exact (h.sweeping s hs).begun
      · exact (h.sweeping s hs).cleared key e hold hcov hdone

/-- What is left after a shard was swept was there before, and in that shard nothing of the scope is
left. -/
theorem find_swept {i : Fin cacheShards} {del : String → Bool} {ord : CacheOrder CachedValue} {key : String} {e : CacheEntry CachedValue}
    (h : ({ c with shards := Function.update c.shards i ((c.shards i).deleteFunc del ord) } : TtlCache CachedValue).find key = some e) :
    c.find key = some e ∧ (shardOf key = i → del key = false) := by
  by_cases hi : shardOf key = i
  · subst hi
    rw [TtlCache.find, TtlCache.shard] at h
    dsimp only at h
    rw [Function.update_self] at h
    obtain ⟨hold, hdel⟩ := CacheShard.lookup_deleteFunc h
    exact ⟨hold, fun _ => hdel⟩
  · rw [TtlCache.find, TtlCache.shard] at h
    dsimp only at h
    rw [Function.update_of_ne hi] at h
    exact ⟨h, fun he => absurd he hi⟩

theorem Sound.sweepOn (h : Sound limit w) {i : ℕ} {s : Sweep} (hs : w.sweeps[i]? = some s) (ord : CacheOrder CachedValue) :
    Sound limit (w.sweepOn i s ord) := by
  have hsweep := h.sweeping s (List.mem_of_getElem? hs)
  unfold Responses.sweepOn
  split_ifs with hdone
  · refine ⟨fun key e he => h.stored key e (find_swept he).1, fun s' hs' => ?_, h.replays, h.through⟩
    rcases List.mem_or_eq_of_mem_set hs' with hold | rfl
    · exact ⟨(h.sweeping s' hold).begun, fun key e he => (h.sweeping s' hold).cleared key e (find_swept he).1⟩
    · refine ⟨hsweep.begun, fun key e he hcov hlt => ?_⟩
      obtain ⟨hold, hdel⟩ := find_swept he
      rcases Nat.lt_succ_iff_lt_or_eq.mp hlt with hbehind | hhere
      · exact hsweep.cleared key e hold hcov hbehind
      · -- the shard just swept
        have hfalse := hdel (Fin.ext hhere)
        rw [List.isPrefixOf_iff_prefix.mpr hcov] at hfalse
        exact absurd hfalse Bool.noConfusion
  · have hend : Sound limit { w with log := w.log ++ [.invalidated s.pfx s.service s.begun] } := by
      apply h.record
      refine ⟨hsweep.begun, fun key e he hcov => hsweep.cleared key e he hcov ?_⟩
      exact (shardOf key).isLt.trans_le (not_lt.mp hdone)
    exact ⟨hend.stored, fun s' hs' => hend.sweeping s' (List.mem_of_mem_eraseIdx hs'), hend.replays, hend.through⟩

theorem Sound.step {x : ResponsesAct} {w' : Responses} (h : Sound limit w) (hstep : w.step limit size x = some w') : Sound limit w' := by
  cases x with
  | arrive r cfg =>
    cases cfg with
    | none =>
      obtain rfl := Option.some.inj hstep
      exact h
    | some cfg =>
      change (if r.method = "GET" ∧ cfg.enabled then some (w.serve ⟨r, cfg⟩) else some w) = some w' at hstep
      split_ifs at hstep with hget
      · obtain rfl := Option.some.inj hstep
        exact h.serve _
      · obtain rfl := Option.some.inj hstep
        exact h
  | finish i a ord =>
    obtain ⟨l, -, rfl⟩ := Option.map_eq_some_iff.mp hstep
    have hleft : Sound limit { w with waiting := w.waiting.eraseIdx i } := ⟨h.stored, h.sweeping, h.replays, h.through⟩
    exact hleft.finish l a ord
  | abort i =>
    obtain ⟨l, -, rfl⟩ := Option.map_eq_some_iff.mp hstep
    exact ⟨h.stored, h.sweeping, h.replays, h.through⟩
  | invalidate pfx service =>
    obtain rfl := Option.some.inj hstep
    refine ⟨h.stored, fun s hs => ?_, h.replays, h.through⟩
    rcases List.mem_append.mp hs with hold | hnew
    · exact h.sweeping s hold
    · obtain rfl := List.mem_singleton.mp hnew
      exact ⟨le_rfl, fun key e _ _ hlt => absurd hlt (Nat.not_lt_zero _)⟩
  | sweep i ord =>
    obtain ⟨s, hs, rfl⟩ := Option.map_eq_some_iff.mp hstep
    exact h.sweepOn hs ord
  | tick d =>
    obtain rfl := Option.some.inj hstep
    refine ⟨fun key e he => ?_, h.sweeping, h.replays, h.through⟩
    have hs := h.stored key e he
    exact ⟨hs.made, hs.past.trans (by simp), hs.outlives⟩

theorem Sound.run {acts : List ResponsesAct} {w' : Responses} (h : Sound limit w) (hrun : runAll (Responses.step limit size) w acts = some w') :
    Sound limit w' := by
  induction acts generalizing w with
  | nil =>
    obtain rfl := Option.some.inj hrun
    exact h
  | cons x acts ih =>
    obtain ⟨w₁, hstep, hrest⟩ := runAll_cons hrun
    exact ih (h.step hstep) hrest

end Responses

/-! Paths and scopes. -/

theorem trimSlash_of_plain {s : String} (h : '/' ∉ s.toList) : trimSlash s = s := by
  unfold trimSlash
  split
  · rename_i rest hs
    rw [hs] at h
    exact absurd List.mem_cons_self h
  · rfl

/-- The segments of a routed path stand at its start, in this order. -/
theorem path_of_splitRoute {path scope service : String} (h : splitRoute path = some (scope, service)) :
    service ≠ "" ∧ '/' ∉ scope.toList ∧ scope.toList ++ '/' :: service.toList <+: (trimSlash path).toList := by
  have hwhole := List.takeWhile_append_dropWhile (p := (· ≠ '/')) (l := (trimSlash path).toList)
  unfold splitRoute at h
  dsimp only at h
  cases hdrop : (trimSlash path).toList.dropWhile (· ≠ '/') with
  | nil =>
    rw [hdrop] at h
    exact absurd h (by simp)
  | cons c rest =>
    -- what stops the first segment is a slash
    have hc : c = '/' := by
      have hhead := List.head?_dropWhile_not (· ≠ '/') (trimSlash path).toList
      rw [hdrop] at hhead
      simpa using hhead
    rw [hdrop] at h hwhole
    dsimp only at h
    split_ifs at h with hne
    obtain ⟨rfl, rfl⟩ := Prod.mk.inj (Option.some.inj h)
    simp only [String.toList_ofList]
    refine ⟨fun hempty => hne (.inr (by simpa using congrArg String.toList hempty)), fun hmem => ?_, ?_⟩
    · simpa using List.mem_takeWhile_imp hmem
    · conv_rhs => rw [← hwhole, hc]
      refine (List.prefix_append_right_inj _).mpr ?_
      exact List.cons_prefix_cons.mpr ⟨rfl, List.takeWhile_prefix _⟩

/-- The scopes of the prefix and of the service have every key of a path that is routed there. -/
theorem covers_of_splitRoute {l : Lookup} {scope service : String} (hroot : l.path.toList.head? = some '/')
    (h : splitRoute l.path = some (scope, service)) :
    Responses.Covers scope service l.key ∧ Responses.Covers scope "" l.key := by
  obtain ⟨hservice, hplain, hpre⟩ := path_of_splitRoute h
  have hpath : '/' :: (trimSlash l.path).toList = l.path.toList := by
    obtain ⟨rest, hrest⟩ := List.head?_eq_some_iff.mp hroot
    simp [trimSlash, hrest]
  have hkey : 'c' :: ':' :: l.path.toList <+: l.key.toList := by
    rw [Lookup.key, generateCacheKey, String.toList_append, String.toList_append, String.toList_append, List.append_assoc]
    exact List.prefix_append ('c' :: ':' :: l.path.toList) _
  rw [← hpath] at hkey
  have hlong : 'c' :: ':' :: '/' :: (scope.toList ++ '/' :: service.toList) <+: l.key.toList := by
    refine List.IsPrefix.trans ?_ hkey
    simpa [List.cons_prefix_cons] using hpre
  have hshort : 'c' :: ':' :: '/' :: scope.toList <+: l.key.toList :=
    List.IsPrefix.trans ⟨'/' :: service.toList, by simp⟩ hlong
  unfold Responses.Covers scopePattern
  rw [trimSlash_of_plain hplain, if_neg hservice, if_pos rfl]
  constructor
  · simpa [String.toList_append] using hlong
  · simpa [String.toList_append] using hshort

namespace Sample

/-- `GET /v1/orders` with an hour to live. -/
def ordersLookup : Lookup := ⟨⟨"GET", "/v1/orders", "", "", "k"⟩, ⟨true, 3600, ""⟩⟩

def inOrder : CacheOrder CachedValue := ⟨id, fun _ => .refl _⟩

def ask : ResponsesAct := .arrive ordersLookup.toCacheRequest (some ordersLookup.cfg)

/-- The first of the waiting requests is answered. -/
def answerWith (body : List UInt8) : ResponsesAct :=
  .finish 0 ⟨[.writeHeader 200, .write body], "text/plain", false⟩ fun _ => inOrder

/-- Asked, answered, and asked again before and after an invalidation. -/
def ordersReloaded : List ResponsesAct :=
  [ask, answerWith [104, 105], .tick 5, ask, .invalidate "v1" "orders"] ++ List.replicate 33 (.sweep 0 inOrder) ++
    [ask, answerWith [104, 111], .tick 5, ask]

/-- Whom a record of an answer is about. -/
def lookupOf : CacheRecord → Option Lookup
  | .answered l _ _ => some l
  | _ => none

end Sample

/-- A hit repeats what an earlier request for the same path was answered with, not longer than its time
to live, and stored after every invalidation of its scope that was through by then had begun. -/
theorem cache_hit_replays (limit : ℤ) (size : CachedResponse → ℤ) (budget start : ℤ) (acts : List ResponsesAct) (w : Responses)
    (hrun : runAll (Responses.step limit size) (.start budget start) acts = some w) (j : ℕ) (l : Lookup) (resp : CachedResponse)
    (answer : ℕ) (now : ℤ) (hhit : w.log[j]? = some (.hit l resp answer now)) :
    ∃ l' a t, answer < j ∧ w.log[answer]? = some (.answered l' a t) ∧ l'.key = l.key ∧ l'.path = l.path ∧
      resp = ⟨statusOf a.calls, a.contentType, bodyOf a.calls⟩ ∧ cacheableStatus resp.statusCode ∧ a.upstreamFailed = false ∧
      (resp.body.length : ℤ) ≤ max limit 0 ∧ t ≤ now ∧ now < t + l'.cfg.ttl ∧
      ∀ i < j, ∀ pfx service begun, w.log[i]? = some (.invalidated pfx service begun) →
        Responses.Covers pfx service l.key → begun ≤ answer := by
  have hsound : Responses.Sound limit w := (Responses.Sound.start budget start).run hrun
  have hreplays := hsound.replays j l resp answer now hhit
  obtain ⟨l', a, t, hlt, hlog, hkey, hcached, hpast, httl⟩ := hreplays.made
  obtain ⟨hresp, hstatus, hfailed, hlen⟩ := Answer.cached_eq hcached
  exact ⟨l', a, t, hlt, hlog, hkey, path_of_generateCacheKey hkey, hresp, hstatus, hfailed, hlen, hpast, httl, hreplays.outlives⟩

theorem cache_hit_replays_orders : ∃ w, runAll (Responses.step 1000 fun _ => 50) (.start 100000 0) Sample.ordersReloaded = some w ∧
    w.log[1]? = some (.hit Sample.ordersLookup ⟨200, "text/plain", [104, 105]⟩ 0 5) ∧
    ∃ a t, w.log[0]? = some (.answered Sample.ordersLookup a t) ∧ bodyOf a.calls = [104, 105] := by
  have heval : (runAll (Responses.step 1000 fun _ => 50) (.start 100000 0) Sample.ordersReloaded).map (fun w => w.log[1]?) =
      some (some (.hit Sample.ordersLookup ⟨200, "text/plain", [104, 105]⟩ 0 5)) := by decide +kernel
  obtain ⟨w, hrun, hhit⟩ := Option.map_eq_some_iff.mp heval
  obtain ⟨l', a, t, -, hlog, -, -, hresp, -⟩ := cache_hit_replays 1000 (fun _ => 50) 100000 0 _ w hrun 1 _ _ 0 5 hhit
  have hfirst : (runAll (Responses.step 1000 fun _ => 50) (.start 100000 0) Sample.ordersReloaded).map
      (fun w => w.log[0]?.map Sample.lookupOf) = some (some (some Sample.ordersLookup)) := by decide +kernel
  rw [hrun, Option.map_some, hlog] at hfirst
  obtain rfl : l' = Sample.ordersLookup := by simpa [Sample.lookupOf] using hfirst
  exact ⟨w, hrun, hhit, a, t, hlog, (CachedResponse.mk.inj hresp).2.2.symm⟩

end Edge

end Gate
