import Gate.Spec.HubTiers

/-! An invalidated tier or owner does not come back from the hub's cache: an invalidation first
moves the generation on, so that what was read before is not stored any more, and then takes out
what had been stored. -/

namespace Gate

open Conc (runAll Along inv_runAll along_of_forall)

/-! The cache's map. -/

namespace CachedTiers

variable {c : CachedTiers} {k k' : String} {e : CachedTier}

theorem find?_without (l : List (String × CachedTier)) (k k' : String) :
    ((l.filter fun p => p.1 ≠ k).find? fun p => p.1 = k') = if k' = k then none else l.find? fun p => p.1 = k' := by
  rw [List.find?_filter]
  split_ifs with h
  · rw [List.find?_eq_none]
    intro p _
    simp only [ne_eq, decide_not, Bool.not_eq_eq_eq_not, Bool.not_true, decide_eq_false_iff_not,
      decide_eq_true_eq, not_and]
    intro hne hk
    exact hne (hk.trans h)
  · congr 1
    funext p
    by_cases hp : p.1 = k'
    · simp [hp, h]
    · simp [hp]

theorem find_delete (c : CachedTiers) (k k' : String) : (c.delete k).find k' = if k' = k then none else c.find k' := by
  unfold find delete
  rw [find?_without]
  split_ifs <;> rfl

theorem find_set (c : CachedTiers) (k : String) (e : CachedTier) (k' : String) :
    (c.set k e).find k' = if k' = k then some e else c.find k' := by
  unfold find set
  rw [List.find?_append, find?_without]
  split_ifs with h
  · simp [h]
  · have hk : ¬ k = k' := fun he => h he.symm
    simp [hk]

/-- What is looked up or updated is the key's entry. -/
theorem find_of_lookup {ttl now : ℤ} (h : c.lookup ttl now k = some e) : c.find k = some e ∧ now - e.time < ttl := by
  obtain ⟨hf, hlt⟩ := Option.filter_eq_some_iff.mp h
  exact ⟨hf, by simpa using hlt⟩

end CachedTiers

theorem CachedTier.get_put (e : CachedTier) (f g : TierField) (r : Reading) (now : ℤ) :
    CachedTier.get { e.put f r with time := now } g = if g = f then (if cacheable f r then some r else none) else e.get g := by
  cases f <;> cases g
  · by_cases hv : r.value = "" <;> simp [get, put, cacheable, hv]
  · rfl
  · rfl
  · rfl

/-- An entry after `store1` is as it was, or it is the key's own, with the value stored and what
was in the entry before if the cache was not full. -/
theorem CachedTiers.find_store1 {c : CachedTiers} {max : ℕ} {ttl now : ℤ} {k k' : String} {gen : ℕ} {f : TierField}
    {r : Reading} {e : CachedTier} (h : (c.store1 max ttl now k gen f r).find k' = some e) :
    c.find k' = some e ∨ (k' = k ∧ c.gen = gen ∧ e.time = now ∧
      (cacheable f r → e.get f = some r) ∧ ∀ g x, e.get g = some x →
        (g = f ∧ x = r) ∨ ∃ e₀, c.lookup ttl now k = some e₀ ∧ e₀.get g = some x ∧ c.entries.length < max) := by
  unfold store1 at h
  by_cases hgen : c.gen ≠ gen
  · rw [if_pos hgen] at h
    exact .inl h
  · rw [if_neg hgen] at h
    dsimp only at h
    -- the map that is updated has nothing that was not there before
    set c' := if max ≤ c.entries.length then { c with entries := [] } else c with hc'
    have hsub : ∀ {k₁ e₁}, c'.find k₁ = some e₁ → c.find k₁ = some e₁ ∧ c.entries.length < max := by
      intro k₁ e₁ h₁
      rw [hc'] at h₁
      split_ifs at h₁ with hfull
      · cases h₁
      · exact ⟨h₁, not_le.mp hfull⟩
    rw [find_set] at h
    split_ifs at h with hk
    · cases h
      refine .inr ⟨hk, not_not.mp hgen, rfl, fun hcache => ?_, fun g x hx => ?_⟩
      · rw [CachedTier.get_put, if_pos rfl, if_pos hcache]
      rw [CachedTier.get_put] at hx
      split_ifs at hx with hg hcache
      · cases hx
        exact .inl ⟨hg, rfl⟩
      · right
        unfold toUpdate at hx
        cases hl : c'.lookup ttl now k with
        | none =>
          rw [hl] at hx
          cases g <;> cases hx
        | some e₀ =>
          rw [hl] at hx
          obtain ⟨hf, hlt⟩ := find_of_lookup hl
          exact ⟨e₀, Option.filter_eq_some_iff.mpr ⟨(hsub hf).1, by simpa using hlt⟩, hx, (hsub hf).2⟩
    · exact .inl (hsub h).1

theorem CachedTiers.gen_store1 (c : CachedTiers) (max : ℕ) (ttl now : ℤ) (k : String) (gen : ℕ) (f : TierField) (r : Reading) :
    (c.store1 max ttl now k gen f r).gen = c.gen := by
  unfold store1
  split_ifs <;> rfl

/-! The invariant. -/

/-- An invalidation that has moved the generation on. -/
def Invalidation.Bumped (i : Invalidation) : Prop := i.phase ≠ .begun

/-- What a call holds. -/
structure Lookup.Fresh (w : HubTiers) (l : Lookup) : Prop where
  past : ∀ i ∈ l.past, i ∈ w.completed
  gen : ∀ g, l.phase = .loaded g → g ≤ w.cache.gen
  read : ∀ g r, l.phase = .read g r → g ≤ w.cache.gen ∧ (∀ i ∈ l.past, r.Outlasts l.field i) ∧
    (g = w.cache.gen → ∀ i ∈ w.invalidations, i.Bumped → r.Outlasts l.field i)
  returned : ∀ r, l.phase = .returned r → ∀ i ∈ l.past, i.name = l.name → r.Outlasts l.field i

/-- Nothing cached under a key was overwritten before a completed invalidation of the key began. -/
structure Purged (w : HubTiers) : Prop where
  written : ∀ i ∈ w.invalidations, ∀ f n, i.written f n ≤ w.written f n
  cached : ∀ k e, w.cache.find k = some e → ∀ f r, e.get f = some r → ∀ i ∈ w.completed, cacheKey i.name = k → r.Outlasts f i
  lookups : ∀ l ∈ w.lookups, l.Fresh w

variable {w w' : HubTiers} {max : ℕ} {ttl : ℤ}

theorem purged_start (now : ℤ) (store : TierField → KeyName → String) : Purged (.start now store) where
  written _ hi := absurd hi List.not_mem_nil
  cached _ _ h := by cases h
  lookups _ hl := absurd hl List.not_mem_nil

theorem mem_completed {i : Invalidation} : i ∈ w.completed ↔ i ∈ w.invalidations ∧ i.phase = .completed := by
  simp [HubTiers.completed]

/-- A step that leaves the invalidations, the cache and the calls alone. -/
theorem Purged.same (h : Purged w) (hi : w'.invalidations = w.invalidations) (hc : w'.cache = w.cache)
    (hl : w'.lookups = w.lookups) (hw : ∀ f n, w.written f n ≤ w'.written f n) : Purged w' := by
  have hdone : w'.completed = w.completed := by unfold HubTiers.completed; rw [hi]
  refine ⟨fun i him f n => ?_, ?_, fun l hlm => ?_⟩
  · rw [hi] at him
    exact (h.written i him f n).trans (hw f n)
  · rw [hc, hdone]
    exact h.cached
  · rw [hl] at hlm
    obtain ⟨past, gen, read, returned⟩ := h.lookups l hlm
    exact ⟨by rw [hdone]; exact past, by rw [hc]; exact gen, by rw [hc, hi]; exact read, returned⟩

/-- A call that moves on. -/
theorem Purged.setLookup (h : Purged w) (i : ℕ) {l : Lookup} (phase : LookPhase) (hl : ({ l with phase := phase } : Lookup).Fresh w) :
    Purged (w.setLookup i l phase) := by
  refine ⟨h.written, h.cached, fun l' hl' => ?_⟩
  rcases List.mem_or_eq_of_mem_set hl' with hl' | rfl
  · obtain ⟨past, gen, read, returned⟩ := h.lookups l' hl'
    exact ⟨past, gen, read, returned⟩
  · obtain ⟨past, gen, read, returned⟩ := hl
    exact ⟨past, gen, read, returned⟩

/-- What a call finds in the cache outlasts the completed invalidations of its key. -/
theorem Purged.hit (h : Purged w) {l : Lookup} (hl : l.Fresh w) {e : CachedTier} {r : Reading}
    (he : w.cache.lookup ttl w.now (cacheKey l.name) = some e) (hr : e.get l.field = some r) :
    ∀ i ∈ l.past, i.name = l.name → r.Outlasts l.field i := fun i hi hn =>
  h.cached _ e (CachedTiers.find_of_lookup he).1 _ r hr i (hl.past i hi) (by rw [hn])

/-- What a call has read is stored only if no invalidation has moved the generation since. -/
theorem Purged.store (h : Purged w) {l : Lookup} {gen : ℕ} {r : Reading} (hl : l.Fresh w) (hp : l.phase = .read gen r) :
    Purged { w with cache := w.cache.store1 max ttl w.now (cacheKey l.name) gen l.field r } := by
  refine ⟨h.written, fun k e he f x hx i hi hk => ?_, fun l' hl' => ?_⟩
  · rcases CachedTiers.find_store1 he with he | ⟨rfl, hgen, -, -, hfields⟩
    · exact h.cached k e he f x hx i hi hk
    · rcases hfields f x hx with ⟨rfl, rfl⟩ | ⟨e₀, he₀, hx₀, -⟩
      · obtain ⟨him, hphase⟩ := mem_completed.mp hi
        refine (hl.read gen x hp).2.2 hgen.symm i him ?_
        unfold Invalidation.Bumped
        rw [hphase]
        exact nofun
      · exact h.cached _ e₀ (CachedTiers.find_of_lookup he₀).1 f x hx₀ i hi hk
  · obtain ⟨past, gen', read, returned⟩ := h.lookups l' hl'
    refine ⟨past, ?_, ?_, returned⟩
    · rw [CachedTiers.gen_store1]
      exact gen'
    · rw [CachedTiers.gen_store1]
      exact read

theorem Purged.get (h : Purged w) (f : TierField) (name : KeyName) :
    Purged { w with lookups := w.lookups ++ [⟨f, name, w.completed, .begun⟩] } := by
  refine ⟨h.written, h.cached, fun l hl => ?_⟩
  rcases List.mem_append.mp hl with hl | hl
  · obtain ⟨past, gen, read, returned⟩ := h.lookups l hl
    exact ⟨past, gen, read, returned⟩
  · obtain rfl := List.mem_singleton.mp hl
    exact ⟨fun i hi => hi, nofun, nofun, nofun⟩

/-- What is read now outlasts every invalidation there has been. -/
theorem Purged.read (h : Purged w) {l : Lookup} {gen : ℕ} (hl : l.Fresh w) (hp : l.phase = .loaded gen) :
    ({ l with phase := .read gen ⟨w.store l.field l.name, l.name, w.written l.field l.name, w.now⟩ } : Lookup).Fresh w := by
  have houtlasts : ∀ i ∈ w.invalidations,
      Reading.Outlasts ⟨w.store l.field l.name, l.name, w.written l.field l.name, w.now⟩ l.field i :=
    fun i hi => h.written i hi _ _
  refine ⟨hl.past, nofun, fun g r hr => ?_, nofun⟩
  cases hr
  exact ⟨hl.gen gen hp, fun i hi => houtlasts i (mem_completed.mp (hl.past i hi)).1, fun _ i hi _ => houtlasts i hi⟩

theorem Purged.invalidate (h : Purged w) (name : KeyName) :
    Purged { w with invalidations := w.invalidations ++ [⟨name, w.written, .begun⟩] } := by
  have hdone : ({ w with invalidations := w.invalidations ++ [⟨name, w.written, .begun⟩] } : HubTiers).completed = w.completed := by
    simp [HubTiers.completed]
  refine ⟨fun i hi f n => ?_, ?_, fun l hl => ?_⟩
  · rcases List.mem_append.mp hi with hi | hi
    · exact h.written i hi f n
    · obtain rfl := List.mem_singleton.mp hi
      exact le_rfl
  · rw [hdone]
    exact h.cached
  · obtain ⟨past, gen, read, returned⟩ := h.lookups l hl
    refine ⟨by rw [hdone]; exact past, gen, fun g r hr => ?_, returned⟩
    obtain ⟨hle, hpast, hbumped⟩ := read g r hr
    refine ⟨hle, hpast, fun hg i hi hb => ?_⟩
    rcases List.mem_append.mp hi with hi | hi
    · exact hbumped hg i hi hb
    · obtain rfl := List.mem_singleton.mp hi
      exact absurd rfl hb

/-- An invalidation that is not yet complete moves on, and those that are stay. -/
theorem mem_completed_set {j : ℕ} {v : Invalidation} (hv : w.invalidations[j]? = some v) (hp : v.phase ≠ .completed)
    (v' : Invalidation) {i : Invalidation} (hi : i ∈ w.completed) :
    i ∈ w.invalidations.set j v' ∧ i.phase = .completed := by
  obtain ⟨him, hphase⟩ := mem_completed.mp hi
  obtain ⟨n, hn⟩ := List.mem_iff_getElem?.mp him
  have hne : j ≠ n := by
    rintro rfl
    rw [hv] at hn
    cases hn
    exact hp hphase
  exact ⟨List.mem_iff_getElem?.mpr ⟨n, by rw [List.getElem?_set_ne hne, hn]⟩, hphase⟩

theorem Purged.bump (h : Purged w) {j : ℕ} {v : Invalidation} (hv : w.invalidations[j]? = some v) (hp : v.phase = .begun) :
    Purged { w with cache := { w.cache with gen := w.cache.gen + 1 },
                    invalidations := w.invalidations.set j { v with phase := .bumped } } := by
  refine ⟨fun i hi f n => ?_, fun k e he f r hr i hi hk => ?_, fun l hl => ?_⟩
  · rcases List.mem_or_eq_of_mem_set hi with hi | rfl
    · exact h.written i hi f n
    · exact h.written v (List.mem_of_getElem? hv) f n
  · obtain ⟨him, hphase⟩ := mem_completed.mp hi
    rcases List.mem_or_eq_of_mem_set him with him | rfl
    · exact h.cached k e he f r hr i (mem_completed.mpr ⟨him, hphase⟩) hk
    · cases hphase
  · obtain ⟨past, gen, read, returned⟩ := h.lookups l hl
    refine ⟨fun i hi => ?_, fun g hg => (gen g hg).trans (Nat.le_succ _), fun g r hr => ?_, returned⟩
    · exact mem_completed.mpr (mem_completed_set hv (by simp [hp]) _ (past i hi))
    · -- what was read under an older generation is not stored any more
      obtain ⟨hle, hpast, -⟩ := read g r hr
      refine ⟨hle.trans (Nat.le_succ _), hpast, fun hg => ?_⟩
      dsimp only at hg
      omega

theorem Purged.delete (h : Purged w) {j : ℕ} {v : Invalidation} (hv : w.invalidations[j]? = some v) (hp : v.phase = .bumped) :
    Purged { w with cache := w.cache.delete (cacheKey v.name),
                    invalidations := w.invalidations.set j { v with phase := .completed } } := by
  refine ⟨fun i hi f n => ?_, fun k e he f r hr i hi hk => ?_, fun l hl => ?_⟩
  · rcases List.mem_or_eq_of_mem_set hi with hi | rfl
    · exact h.written i hi f n
    · exact h.written v (List.mem_of_getElem? hv) f n
  · rw [CachedTiers.find_delete] at he
    split_ifs at he with hkey
    obtain ⟨him, hphase⟩ := mem_completed.mp hi
    rcases List.mem_or_eq_of_mem_set him with him | rfl
    · exact h.cached k e he f r hr i (mem_completed.mpr ⟨him, hphase⟩) hk
    · exact absurd hk.symm hkey
  · obtain ⟨past, gen, read, returned⟩ := h.lookups l hl
    refine ⟨fun i hi => ?_, gen, fun g r hr => ?_, returned⟩
    · exact mem_completed.mpr (mem_completed_set hv (by simp [hp]) _ (past i hi))
    · obtain ⟨hle, hpast, hbumped⟩ := read g r hr
      refine ⟨hle, hpast, fun hg i hi hb => ?_⟩
      rcases List.mem_or_eq_of_mem_set hi with hi | rfl
      · exact hbumped hg i hi hb
      · exact hbumped hg v (List.mem_of_getElem? hv) (by unfold Invalidation.Bumped; rw [hp]; exact nofun)

theorem Purged.step (h : Purged w) {a : HubTierAct} (hs : w.step max ttl a = some w') : Purged w' := by
  cases a with
  | tick d =>
    cases hs
    exact h.same rfl rfl rfl fun _ _ => le_rfl
  | write f name value =>
    cases hs
    refine h.same rfl rfl rfl fun g n => ?_
    dsimp only
    split_ifs <;> omega
  | get f name =>
    cases hs
    exact h.get f name
  | look i =>
    obtain ⟨l, hl, hs⟩ := Option.bind_eq_some_iff.mp hs
    have hfresh := h.lookups l (List.mem_of_getElem? hl)
    split_ifs at hs
    split at hs
    next r hr =>
      cases hs
      obtain ⟨e, he, hget⟩ := Option.bind_eq_some_iff.mp hr
      refine h.setLookup i _ ⟨hfresh.past, nofun, nofun, fun r' hr' => ?_⟩
      cases hr'
      exact h.hit hfresh he hget
    next =>
      cases hs
      exact h.setLookup i _ ⟨hfresh.past, nofun, nofun, nofun⟩
  | load i =>
    obtain ⟨l, hl, hs⟩ := Option.bind_eq_some_iff.mp hs
    have hfresh := h.lookups l (List.mem_of_getElem? hl)
    split_ifs at hs
    cases hs
    refine h.setLookup i _ ⟨hfresh.past, fun g hg => ?_, nofun, nofun⟩
    cases hg
    exact le_rfl
  | read i =>
    obtain ⟨l, hl, hs⟩ := Option.bind_eq_some_iff.mp hs
    have hfresh := h.lookups l (List.mem_of_getElem? hl)
    split at hs
    next gen hp =>
      cases hs
      exact h.setLookup i _ (h.read hfresh hp)
    next => cases hs
  | fail i =>
    obtain ⟨l, hl, hs⟩ := Option.bind_eq_some_iff.mp hs
    have hfresh := h.lookups l (List.mem_of_getElem? hl)
    split at hs
    next =>
      cases hs
      exact h.setLookup i _ ⟨hfresh.past, nofun, nofun, nofun⟩
    next => cases hs
  | store i =>
    obtain ⟨l, hl, hs⟩ := Option.bind_eq_some_iff.mp hs
    have hfresh := h.lookups l (List.mem_of_getElem? hl)
    split at hs
    next gen r hp =>
      cases hs
      have hpast := (hfresh.read gen r hp).2.1
      split_ifs
      · refine (h.store hfresh hp).setLookup i _ ⟨hfresh.past, nofun, nofun, fun r' hr' => ?_⟩
        cases hr'
        exact fun v hv _ => hpast v hv
      · refine h.setLookup i _ ⟨hfresh.past, nofun, nofun, fun r' hr' => ?_⟩
        cases hr'
        exact fun v hv _ => hpast v hv
    next => cases hs
  | invalidate name =>
    cases hs
    exact h.invalidate name
  | bump j =>
    obtain ⟨v, hv, hs⟩ := Option.bind_eq_some_iff.mp hs
    split_ifs at hs with hp
    cases hs
    exact h.bump hv hp
  | delete j =>
    obtain ⟨v, hv, hs⟩ := Option.bind_eq_some_iff.mp hs
    split_ifs at hs with hp
    cases hs
    exact h.delete hv hp

/-- A call that begins after an invalidation of its key has completed returns no value that had
been overwritten when the invalidation began. -/
theorem invalidated_not_served (max : ℕ) (ttl now : ℤ) (store : TierField → KeyName → String) (acts : List HubTierAct) (w : HubTiers)
    (hrun : runAll (HubTiers.step max ttl) (.start now store) acts = some w) :
    ∀ l ∈ w.lookups, ∀ r, l.phase = .returned r → ∀ i ∈ l.past, i.name = l.name → r.Outlasts l.field i := by
  have hall : Along (HubTiers.step max ttl) (fun _ _ => True) (.start now store) acts := along_of_forall (fun _ _ => trivial) acts _
  have h : Purged w := inv_runAll (fun _ _ _ hi _ hs => hi.step hs) acts _ w (purged_start now store) hall hrun
  intro l hl r hr
  exact (h.lookups l hl).returned r hr

namespace Sample

def aKey : KeyName := ⟨"orders", "k1"⟩

/-- The tier is read, changed and invalidated before the slow reader stores it; a second call then
reads the new one. -/
def slowReader : List HubTierAct :=
  [.get .tier aKey, .look 0, .load 0, .read 0, .write .tier aKey "free", .invalidate aKey, .bump 0, .delete 0,
   .get .tier aKey, .store 0, .look 1, .load 1, .read 1, .store 1]

end Sample

open Sample in
theorem invalidated_not_served_slow_reader :
    ∃ w, runAll (HubTiers.step 200000 60000) (.start 0 fun _ _ => "pro") slowReader = some w ∧
      w.lookups.map (fun l => (l.past.length, l.phase)) =
        [(0, .returned ⟨"pro", aKey, 0, 0⟩), (1, .returned ⟨"free", aKey, 1, 0⟩)] ∧
      ∀ l ∈ w.lookups, ∀ r, l.phase = .returned r → ∀ i ∈ l.past, i.name = l.name → r.Outlasts l.field i := by
  have heval : (runAll (HubTiers.step 200000 60000) (.start 0 fun _ _ => "pro") slowReader).map
      (fun w => w.lookups.map fun l => (l.past.length, l.phase)) =
        some [(0, .returned ⟨"pro", aKey, 0, 0⟩), (1, .returned ⟨"free", aKey, 1, 0⟩)] := by decide +kernel
  obtain ⟨w, hrun, hw⟩ := Option.map_eq_some_iff.mp heval
  exact ⟨w, hrun, hw, invalidated_not_served 200000 60000 0 _ slowReader w hrun⟩

/-! The age of what is returned. The tier and the owner of a key share one time. -/

/-- What a call can do: find the value, fail, or read and perhaps store it. -/
theorem CachedTiers.call_cases (c : CachedTiers) (max : ℕ) (ttl : ℤ) (q : TierQuery) :
    (∃ e r, c.lookup ttl q.now (cacheKey q.name) = some e ∧ e.get q.field = some r ∧ c.call max ttl q = (some r, c)) ∨
    c.call max ttl q = (none, c) ∨
    ∃ v ∈ q.answer, (∀ e ∈ c.lookup ttl q.now (cacheKey q.name), e.get q.field = none) ∧
      (c.call max ttl q = (some (q.reading v), c) ∨ (cacheable q.field (q.reading v) ∧
        c.call max ttl q = (some (q.reading v), c.store1 max ttl q.now (cacheKey q.name) c.gen q.field (q.reading v)))) := by
  unfold call
  split
  next r hr =>
    obtain ⟨e, he, hget⟩ := Option.bind_eq_some_iff.mp hr
    exact .inl ⟨e, r, he, hget, rfl⟩
  next hmiss =>
    right
    split
    next => exact .inl rfl
    next v hv =>
      refine .inr ⟨v, hv, Option.bind_eq_none_iff.mp hmiss, ?_⟩
      dsimp only
      split_ifs with hcache
      · exact .inr ⟨hcache, rfl⟩
      · exact .inl rfl

/-- What has been returned had been read less than `age` before. -/
def Younger (age : ℤ) (w : TierCalls) : Prop := ∀ p ∈ w.calls, ∀ r, p.2 = some r → p.1.now - age < r.time

section Steps

variable {max : ℕ} {ttl : ℤ} {w w' : TierCalls} {q : TierQuery}

theorem TierCalls.of_step {a : Option Reading} {c : CachedTiers} (hcall : w.cache.call max ttl q = (a, c))
    (hs : w.step max ttl q = some w') : w' = ⟨c, w.calls ++ [(q, a)]⟩ := by
  unfold TierCalls.step at hs
  rw [hcall] at hs
  exact (Option.some.inj hs).symm

/-- What a call reads is new, so only what it finds in the cache can be too old. -/
theorem Younger.step {age : ℤ} (hpos : 0 < age) (h : Younger age w)
    (hhit : ∀ e r, w.cache.lookup ttl q.now (cacheKey q.name) = some e → e.get q.field = some r → q.now - age < r.time)
    (hs : w.step max ttl q = some w') : Younger age w' := by
  have hadd : ∀ {a : Option Reading} {c : CachedTiers}, w.cache.call max ttl q = (a, c) →
      (∀ r, a = some r → q.now - age < r.time) → Younger age w' := by
    intro a c hcall ha p hp
    rw [TierCalls.of_step hcall hs] at hp
    rcases List.mem_append.mp hp with hp | hp
    · exact h p hp
    · obtain rfl := List.mem_singleton.mp hp
      exact ha
  have hread : ∀ v r, some (q.reading v) = some r → q.now - age < r.time := by
    intro v r hr
    cases hr
    exact Int.sub_lt_self _ hpos
  rcases w.cache.call_cases max ttl q with ⟨e, r, he, hget, hcall⟩ | hcall | ⟨v, -, -, hcall | ⟨-, hcall⟩⟩
  · apply hadd hcall
    intro r' hr'
    cases hr'
    exact hhit e r he hget
  · exact hadd hcall nofun
  · exact hadd hcall (hread v)
  · exact hadd hcall (hread v)

/-- What every entry has, if the one a call stores has it. -/
theorem cached_step {P : CachedTier → Prop} (h : ∀ k e, w.cache.find k = some e → P e)
    (hstore : ∀ v ∈ q.answer, cacheable q.field (q.reading v) → ∀ e : CachedTier, e.time = q.now →
      e.get q.field = some (q.reading v) →
      (∀ g x, e.get g = some x → (g = q.field ∧ x = q.reading v) ∨
        ∃ e₀, w.cache.lookup ttl q.now (cacheKey q.name) = some e₀ ∧ e₀.get q.field = none ∧ e₀.get g = some x ∧
          w.cache.entries.length < max) → P e)
    (hs : w.step max ttl q = some w') : ∀ k e, w'.cache.find k = some e → P e := by
  rcases w.cache.call_cases max ttl q with ⟨_, _, -, -, hcall⟩ | hcall | ⟨v, hv, hmiss, hcall | ⟨hcache, hcall⟩⟩
  · rw [TierCalls.of_step hcall hs]
    exact h
  · rw [TierCalls.of_step hcall hs]
    exact h
  · rw [TierCalls.of_step hcall hs]
    exact h
  · rw [TierCalls.of_step hcall hs]
    intro k e he
    rcases CachedTiers.find_store1 he with he | ⟨-, -, htime, hown, hfields⟩
    · exact h k e he
    · refine hstore v hv hcache e htime (hown hcache) fun g x hx => ?_
      rcases hfields g x hx with hnew | ⟨e₀, he₀, hx₀, hfull⟩
      · exact .inl hnew
      · exact .inr ⟨e₀, he₀, hmiss e₀ he₀, hx₀, hfull⟩

end Steps

/-- What holds between calls: the cached entries have `P`, and what has been returned was younger than `age`. -/
structure InCalls (P : CachedTier → Prop) (age : ℤ) (w : TierCalls) : Prop where
  cached : ∀ k e, w.cache.find k = some e → P e
  returned : Younger age w

theorem inCalls_new (P : CachedTier → Prop) (age : ℤ) : InCalls P age .new where
  cached _ _ h := by cases h
  returned _ hp := absurd hp List.not_mem_nil

/-- No value is older than its entry. -/
def CachedTier.Dated (e : CachedTier) : Prop := ∀ f x, e.get f = some x → e.time ≤ x.time

/-- One that stands alone is not older than its entry, and one of a pair by less than the TTL. -/
def CachedTier.Paired (ttl : ℤ) (e : CachedTier) : Prop :=
  ∀ f x, e.get f = some x → e.time ≤ x.time ∨ (e.time - ttl < x.time ∧ ∀ g, (e.get g).isSome)

theorem dated_step {max : ℕ} {ttl : ℤ} {w w' : TierCalls} {q : TierQuery} (h : ∀ k e, w.cache.find k = some e → e.Dated)
    (hjoin : w.JoinsNoOlder max ttl q) (hs : w.step max ttl q = some w') : ∀ k e, w'.cache.find k = some e → e.Dated := by
  apply cached_step h _ hs
  intro v hv hcache e htime _ hfields f x hx
  rcases hfields f x hx with ⟨-, rfl⟩ | ⟨e₀, he₀, hmiss, hx₀, hfull⟩
  · exact htime.le
  · -- the entry it joins was made at the same time
    have hsome : (e₀.get .tier).isSome ∨ (e₀.get .owner).isSome := by
      cases f
      · exact .inl (by rw [hx₀]; rfl)
      · exact .inr (by rw [hx₀]; rfl)
    have hnow : e₀.time = q.now := hjoin e₀ he₀ hmiss ⟨v, hv, hcache⟩ hfull hsome
    rw [htime, ← hnow]
    exact h _ e₀ (CachedTiers.find_of_lookup he₀).1 f x hx₀

theorem paired_step {max : ℕ} {ttl : ℤ} {w w' : TierCalls} {q : TierQuery} (h : ∀ k e, w.cache.find k = some e → e.Paired ttl)
    (hs : w.step max ttl q = some w') : ∀ k e, w'.cache.find k = some e → e.Paired ttl := by
  apply cached_step h _ hs
  intro v _ _ e htime hown hfields f x hx
  rcases hfields f x hx with ⟨-, rfl⟩ | ⟨e₀, he₀, hmiss, hx₀, -⟩
  · exact .inl htime.le
  · right
    obtain ⟨hfind, hfresh⟩ := CachedTiers.find_of_lookup he₀
    -- the entry it joins had one value only
    have halone : e₀.time ≤ x.time := by
      rcases h _ e₀ hfind f x hx₀ with hle | ⟨-, hboth⟩
      · exact hle
      · have := hboth q.field
        rw [hmiss] at this
        cases this
    have hne : f ≠ q.field := by
      rintro rfl
      rw [hmiss] at hx₀
      cases hx₀
    refine ⟨by omega, fun g => ?_⟩
    have hg : g = f ∨ g = q.field := by
      revert hne
      cases f <;> cases g <;> cases q.field <;> simp
    rcases hg with rfl | rfl
    · rw [hx]
      rfl
    · rw [hown]
      rfl

namespace Sample

def ask (now : ℤ) (f : TierField) (value : String) : TierQuery := ⟨now, f, aKey, some value⟩

end Sample

/-- In any run what a call returns was read less than twice the TTL before: a value is joined by
one other at most. -/
theorem twice_ttl_bounds_age (max : ℕ) (ttl : ℤ) (hpos : 0 < ttl) (qs : List TierQuery) (w : TierCalls)
    (hrun : runAll (TierCalls.step max ttl) .new qs = some w) : Younger (2 * ttl) w := by
  have hstep : ∀ (w : TierCalls) (q : TierQuery) (w' : TierCalls), InCalls (CachedTier.Paired ttl) (2 * ttl) w → True →
      w.step max ttl q = some w' → InCalls (CachedTier.Paired ttl) (2 * ttl) w' := by
    intro w q w' hi _ hs
    refine ⟨paired_step hi.cached hs, hi.returned.step (by omega) (fun e r he hr => ?_) hs⟩
    obtain ⟨hfind, hfresh⟩ := CachedTiers.find_of_lookup he
    rcases hi.cached _ e hfind _ r hr with hle | ⟨hlt, -⟩ <;> omega
  exact (inv_runAll hstep qs _ w (inCalls_new _ (2 * ttl)) (along_of_forall (fun _ _ => trivial) qs _) hrun).returned

end Gate
