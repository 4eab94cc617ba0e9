import Gate.Spec.TtlCache

/-! Is the cache's accounting exact? `set` subtracts the cost of the entry it replaces before it
makes room, and leaves the entry in the map: if it is evicted, its cost is subtracted twice. That
is the only way for the books to go wrong. -/

namespace Gate

open Conc

variable {V : Type}

/-! Costs of a map. -/

theorem sum_kerase (k : String) (l : List (Sigma fun _ : String => CacheEntry V)) :
    ((l.kerase k).map fun x => x.2.cost).sum = (l.map fun x => x.2.cost).sum - costOf (l.dlookup k) := by
  induction l with
  | nil => simp [costOf]
  | cons x l ih =>
    obtain ⟨k', e⟩ := x
    by_cases hk : k = k'
    · subst hk
      simp [costOf, List.kerase_cons_eq, List.dlookup_cons_eq]
    · rw [List.kerase_cons_ne hk, List.dlookup_cons_ne l ⟨k', e⟩ hk]
      simp only [List.map_cons, List.sum_cons, ih]
      omega

theorem sumCosts_erase (m : CacheMap V) (k : String) : sumCosts (m.erase k) = sumCosts m - costOf (m.lookup k) :=
  sum_kerase k m.entries

theorem sumCosts_insert (m : CacheMap V) (k : String) (e : CacheEntry V) :
    sumCosts (m.insert k e) = sumCosts m - costOf (m.lookup k) + e.cost := by
  have h := sum_kerase k m.entries
  simp only [sumCosts, AList.entries_insert, List.map_cons, List.sum_cons, AList.lookup] at h ⊢
  omega

/-- Every entry costs something. -/
def Priced (m : CacheMap V) : Prop := ∀ x ∈ m.entries, 1 ≤ x.2.cost

theorem Priced.erase {m : CacheMap V} (h : Priced m) (k : String) : Priced (m.erase k) :=
  fun x hx => h x ((List.kerase_sublist k m.entries).subset hx)

theorem Priced.insert {m : CacheMap V} (h : Priced m) (k : String) {e : CacheEntry V} (he : 1 ≤ e.cost) : Priced (m.insert k e) := by
  intro x hx
  rw [AList.entries_insert, List.mem_cons] at hx
  rcases hx with rfl | hx
  · exact he
  · exact h.erase k x hx

theorem Priced.lookup {m : CacheMap V} (h : Priced m) {k : String} {e : CacheEntry V} (hk : m.lookup k = some e) : 1 ≤ e.cost :=
  h ⟨k, e⟩ (List.of_mem_dlookup hk)

namespace CacheShard

/-! What a shard's books are off by. -/

def off (s : CacheShard V) : ℤ := s.cost - sumCosts s.entries

theorem off_remove (s : CacheShard V) (k : String) : (s.remove k).off = s.off := by
  simp only [off, remove, sumCosts_erase]
  omega

theorem off_evictOne (s : CacheShard V) (now : ℤ) (ord : CacheOrder V) : (s.evictOne now ord).off = s.off := s.off_remove _

theorem off_makeRoom (budget cost now : ℤ) (ord : ℕ → CacheOrder V) (n : ℕ) (s : CacheShard V) :
    (makeRoom budget cost now ord n s).off = s.off := by
  induction n generalizing s with
  | zero => rfl
  | succ n ih =>
    rw [makeRoom]
    split
    · rw [ih, off_evictOne]
    · rfl

theorem off_cleared (s : CacheShard V) (budget : ℤ) (key : String) (cost now : ℤ) (ord : ℕ → CacheOrder V) :
    (s.cleared budget key cost now ord).off = s.off - costOf (s.entries.lookup key) := by
  rw [cleared, off_makeRoom]
  simp only [off]
  omega

theorem off_set (s : CacheShard V) (budget : ℤ) (key : String) (v : V) (ttl cost now : ℤ) (ord : ℕ → CacheOrder V) :
    (s.set budget key v ttl cost now ord).off = s.off - costOf (s.entries.lookup key) +
      costOf ((s.cleared budget key cost now ord).entries.lookup key) := by
  have h := s.off_cleared budget key cost now ord
  simp only [off, set, sumCosts_insert] at h ⊢
  omega

/-! Making room. -/

theorem sampleVictim_mem (now : ℤ) (l : List (Sigma fun _ : String => CacheEntry V)) (victim : String) (n : ℕ) :
    sampleVictim now l victim n = victim ∨ sampleVictim now l victim n ∈ l.keys := by
  induction l generalizing victim n with
  | nil => exact .inl rfl
  | cons x l ih =>
    rw [sampleVictim]
    split
    · exact .inr (by simp)
    · dsimp only
      by_cases hv : victim = ""
      · rw [if_pos hv]
        right
        split
        · simp
        · rcases ih x.1 (n + 1) with h | h
          · rw [h]
            simp
          · simp [h]
      · rw [if_neg hv]
        split
        · exact .inl rfl
        · exact (ih victim (n + 1)).imp_right fun h => by simp [h]

/-- The victim is an entry, if there is one. -/
theorem victim_mem (now : ℤ) {l : List (Sigma fun _ : String => CacheEntry V)} (hl : l ≠ []) : sampleVictim now l "" 0 ∈ l.keys := by
  cases l with
  | nil => exact absurd rfl hl
  | cons x l =>
    rw [sampleVictim]
    split
    · simp
    · simp only [if_true]
      split
      · simp
      · rcases sampleVictim_mem now l x.1 1 with h | h
        · rw [h]
          simp
        · simp [h]

theorem length_evictOne (s : CacheShard V) (now : ℤ) (ord : CacheOrder V) (h : s.entries.entries ≠ []) :
    (s.evictOne now ord).entries.entries.length + 1 = s.entries.entries.length := by
  have hperm := ord.perm s.entries.entries
  have hne : ord.visit s.entries.entries ≠ [] := fun h0 => h (List.nil_perm.mp (h0 ▸ hperm))
  have hmem : sampleVictim now (ord.visit s.entries.entries) "" 0 ∈ s.entries.keys := by
    have hv := victim_mem now hne
    exact (hperm.map Sigma.fst).mem_iff.mp hv
  have hkeys := List.length_erase_add_one hmem
  rw [← AList.keys_erase] at hkeys
  simp only [AList.keys, List.keys, List.length_map] at hkeys
  exact hkeys

/-- With as many turns as there are entries, the loop is over. -/
theorem makeRoom_ends (budget cost now : ℤ) (ord : ℕ → CacheOrder V) (n : ℕ) (s : CacheShard V) (hn : s.entries.entries.length ≤ n) :
    (makeRoom budget cost now ord n s).cost + cost ≤ budget ∨ (makeRoom budget cost now ord n s).entries.entries = [] := by
  induction n generalizing s with
  | zero =>
    right
    exact List.eq_nil_of_length_eq_zero (Nat.le_zero.mp hn)
  | succ n ih =>
    rw [makeRoom]
    split
    · rename_i h
      apply ih
      have := s.length_evictOne now (ord n) h.2
      omega
    · rename_i h
      by_cases h0 : s.entries.entries = []
      · exact .inr h0
      · left
        by_contra hlt
        exact h ⟨by omega, h0⟩

/-- Making room only takes entries away. -/
theorem lookup_makeRoom {budget cost now : ℤ} {ord : ℕ → CacheOrder V} {n : ℕ} {s : CacheShard V} {k : String} {e : CacheEntry V}
    (h : (makeRoom budget cost now ord n s).entries.lookup k = some e) : s.entries.lookup k = some e := by
  induction n generalizing s with
  | zero => exact h
  | succ n ih =>
    rw [makeRoom] at h
    split at h
    · have hk := ih h
      rw [evictOne, remove] at hk
      by_cases hv : k = sampleVictim now ((ord n).visit s.entries.entries) "" 0
      · rw [← hv, AList.lookup_erase] at hk
        cases hk
      · rwa [AList.lookup_erase_ne hv] at hk
    · exact h

theorem priced_makeRoom {budget cost now : ℤ} {ord : ℕ → CacheOrder V} {n : ℕ} {s : CacheShard V} (h : Priced s.entries) :
    Priced (makeRoom budget cost now ord n s).entries := by
  induction n generalizing s with
  | zero => exact h
  | succ n ih =>
    rw [makeRoom]
    split
    · exact ih (h.erase _)
    · exact h

theorem priced_set {s : CacheShard V} (h : Priced s.entries) (budget : ℤ) (key : String) (v : V) (ttl : ℤ) {cost : ℤ} (hc : 1 ≤ cost)
    (now : ℤ) (ord : ℕ → CacheOrder V) : Priced (s.set budget key v ttl cost now ord).entries :=
  (priced_makeRoom (s := { s with cost := s.cost - costOf (s.entries.lookup key) }) h).insert key hc

/-- The books of a shard after `set` are right exactly if the entry it replaces was not evicted. -/
theorem set_exact_iff {s : CacheShard V} {budget : ℤ} (hs : s.Exact budget) (hp : Priced s.entries) (key : String) (v : V) (ttl : ℤ)
    {cost : ℤ} (hle : cost ≤ budget) (now : ℤ) (ord : ℕ → CacheOrder V) :
    (s.set budget key v ttl cost now ord).Exact budget ↔
      (key ∈ s.entries → key ∈ (s.cleared budget key cost now ord).entries) := by
  have hoff : s.off = 0 := sub_eq_zero.mpr hs.1
  have hset := s.off_set budget key v ttl cost now ord
  have hclear := s.off_cleared budget key cost now ord
  have hold : 0 ≤ costOf (s.entries.lookup key) := by
    cases h : s.entries.lookup key with
    | none => exact le_rfl
    | some e => exact zero_le_one.trans (hp.lookup h)
  have hbudget : (s.set budget key v ttl cost now ord).cost ≤ budget := by
    rcases makeRoom_ends budget cost now ord s.entries.entries.length
      { s with cost := s.cost - costOf (s.entries.lookup key) } le_rfl with h | h
    · exact h
    · -- an empty shard has nothing on its books
      have hzero : sumCosts (s.cleared budget key cost now ord).entries = 0 := by
        unfold sumCosts cleared
        rw [h]
        rfl
      have hcost : (s.set budget key v ttl cost now ord).cost = (s.cleared budget key cost now ord).cost + cost := rfl
      unfold off at hclear hoff
      omega
  have hexact : (s.set budget key v ttl cost now ord).Exact budget ↔ (s.set budget key v ttl cost now ord).off = 0 := by
    unfold Exact off
    rw [sub_eq_zero]
    exact and_iff_left hbudget
  rw [hexact, hset, hoff]
  constructor
  · intro h hmem
    obtain ⟨e, he⟩ := Option.isSome_iff_exists.mp (AList.lookup_isSome.mpr hmem)
    have h1 : 1 ≤ e.cost := hp.lookup he
    rw [he] at h
    by_contra hgone
    rw [AList.lookup_eq_none.mpr hgone] at h
    simp only [costOf, Option.map_some, Option.map_none, Option.getD_some, Option.getD_none] at h
    omega
  · intro h
    have hsame : (s.cleared budget key cost now ord).entries.lookup key = s.entries.lookup key := by
      cases hc : (s.cleared budget key cost now ord).entries.lookup key with
      | some e => exact (lookup_makeRoom hc).symm
      | none =>
        symm
        rw [AList.lookup_eq_none] at hc ⊢
        exact fun hmem => hc (h hmem)
    rw [hsame]
    omega

/-! Deletions. -/

theorem deleteFunc_fold (del : String → Bool) (l : List (Sigma fun _ : String => CacheEntry V)) (s : CacheShard V)
    (hl : l.NodupKeys) (hin : ∀ x ∈ l, s.entries.lookup x.1 = some x.2) : (l.foldl (deleteIf del) s).off = s.off := by
  induction l generalizing s with
  | nil => rfl
  | cons x l ih =>
    obtain ⟨hx, hl⟩ := List.nodupKeys_cons.mp hl
    have hfirst := hin x List.mem_cons_self
    have hrest : ∀ y ∈ l, s.entries.lookup y.1 = some y.2 := fun y hy => hin y (List.mem_cons_of_mem _ hy)
    rw [List.foldl_cons, deleteIf]
    split
    · rw [ih _ hl]
      · simp only [off, sumCosts_erase, hfirst, costOf, Option.map_some, Option.getD_some]
        omega
      · -- the entries still to be visited have other keys
        intro y hy
        have hne : y.1 ≠ x.1 := fun he => hx (he ▸ List.mem_keys_of_mem hy)
        exact (AList.lookup_erase_ne hne).trans (hrest y hy)
    · exact ih s hl hrest

theorem off_deleteFunc (s : CacheShard V) (del : String → Bool) (ord : CacheOrder V) : (s.deleteFunc del ord).off = s.off := by
  have hperm := ord.perm s.entries.entries
  apply deleteFunc_fold
  · exact (List.perm_nodupKeys hperm).mpr s.entries.nodupKeys
  · intro x hx
    exact AList.mem_lookup_iff.mpr (hperm.mem_iff.mp hx)

theorem priced_deleteFunc {s : CacheShard V} (h : Priced s.entries) (del : String → Bool) (ord : CacheOrder V) :
    Priced (s.deleteFunc del ord).entries := by
  unfold deleteFunc
  generalize ord.visit s.entries.entries = l
  induction l generalizing s with
  | nil => exact h
  | cons x l ih =>
    rw [List.foldl_cons]
    apply ih
    unfold deleteIf
    split
    · exact h.erase _
    · exact h

/-- What is deleted had a cost, so the books only go down. -/
theorem cost_deleteFunc_le {s : CacheShard V} (h : Priced s.entries) (del : String → Bool) (ord : CacheOrder V) :
    (s.deleteFunc del ord).cost ≤ s.cost := by
  have hpos : ∀ x ∈ ord.visit s.entries.entries, 1 ≤ x.2.cost := fun x hx => h x ((ord.perm _).mem_iff.mp hx)
  unfold deleteFunc
  generalize ord.visit s.entries.entries = l at hpos
  clear h
  induction l generalizing s with
  | nil => exact le_rfl
  | cons x l ih =>
    rw [List.foldl_cons]
    refine (ih fun y hy => hpos y (List.mem_cons_of_mem _ hy)).trans ?_
    have := hpos x List.mem_cons_self
    unfold deleteIf
    split
    · dsimp only
      omega
    · exact le_rfl

theorem deleteFunc_exact {s : CacheShard V} {budget : ℤ} (hs : s.Exact budget) (hp : Priced s.entries) (del : String → Bool)
    (ord : CacheOrder V) : (s.deleteFunc del ord).Exact budget := by
  refine ⟨?_, (cost_deleteFunc_le hp del ord).trans hs.2⟩
  have hoff := s.off_deleteFunc del ord
  have hs' := hs.1
  unfold off at hoff
  omega

end CacheShard

/-! Calls. -/

def TtlCache.Priced (c : TtlCache V) : Prop := ∀ i, Gate.Priced (c.shards i).entries

theorem TtlCache.Priced.exec {c : TtlCache V} (h : c.Priced) (x : CacheCall V) : (c.exec x).Priced := by
  cases x with
  | get key now => exact h
  | deleteFunc del ord => exact fun i => CacheShard.priced_deleteFunc (h i) del (ord i)
  | set key v ttl cost now ord =>
    simp only [TtlCache.exec, TtlCache.set]
    split
    · exact h
    · intro i
      by_cases hi : i = shardOf key
      · subst hi
        simp only [Function.update_self]
        exact CacheShard.priced_set (h _) c.shardCost key v ttl (le_max_right cost 1) now ord
      · simp only [Function.update_of_ne hi]
        exact h i

/-- One call on exact books. -/
theorem TtlCache.exec_exact_iff {c : TtlCache V} (hc : c.Exact) (hp : c.Priced) (x : CacheCall V) : (c.exec x).Exact ↔ c.Spares x := by
  cases x with
  | get key now => exact ⟨fun _ => trivial, fun _ => hc⟩
  | deleteFunc del ord => exact ⟨fun _ => trivial, fun _ i => CacheShard.deleteFunc_exact (hc i) (hp i) del (ord i)⟩
  | set key v ttl cost now ord =>
    simp only [TtlCache.exec, TtlCache.set]
    split
    · rename_i hlt
      exact ⟨fun _ hle => absurd hlt (not_lt.mpr hle), fun _ => hc⟩
    · rename_i hle
      have hiff := CacheShard.set_exact_iff (hc (shardOf key)) (hp _) key v ttl (not_lt.mp hle) now ord
      constructor
      · intro h _
        have hshard := h (shardOf key)
        simp only [Function.update_self] at hshard
        exact hiff.mp hshard
      · intro h i
        by_cases hi : i = shardOf key
        · subst hi
          simp only [Function.update_self]
          exact hiff.mpr (h (not_lt.mp hle))
        · simp only [Function.update_of_ne hi]
          exact hc i

theorem accounting_iff {c : TtlCache V} (hc : c.Exact) (hp : c.Priced) (calls : List (CacheCall V)) :
    (∀ done, done <+: calls → (done.foldl TtlCache.exec c).Exact) ↔ Along (fun c x => some (c.exec x)) TtlCache.Spares c calls := by
  induction calls generalizing c with
  | nil =>
    refine ⟨fun _ => trivial, fun _ done hd => ?_⟩
    rw [List.prefix_nil.mp hd]
    exact hc
  | cons x calls ih =>
    have hstep := TtlCache.exec_exact_iff hc hp x
    constructor
    · intro h
      have hx : (c.exec x).Exact := h [x] ((List.prefix_cons_inj x).mpr List.nil_prefix)
      exact ⟨hstep.mp hx, (ih hx (hp.exec x)).mp fun done hd => h (x :: done) ((List.prefix_cons_inj x).mpr hd)⟩
    · rintro ⟨hx, hrest⟩ done hd
      cases done with
      | nil => exact hc
      | cons y done =>
        obtain ⟨rfl, htail⟩ := List.cons_prefix_cons.mp hd
        exact (ih (hstep.mpr hx) (hp.exec y)).mpr hrest done htail

/-- For any budget and any sequence of calls, with any choice of victims: the books of every shard are
right and within the budget after each call exactly if no call evicts the entry it is replacing. -/
theorem cache_accounting_exact_iff (V : Type) (budget : ℤ) (calls : List (CacheCall V)) :
    (∀ done, done <+: calls → (done.foldl TtlCache.exec (newTTLCache V budget)).Exact) ↔
      Along (fun c x => some (c.exec x)) TtlCache.Spares (newTTLCache V budget) calls := by
  apply accounting_iff
  · exact fun i => ⟨rfl, zero_le_one.trans (le_max_right _ _)⟩
  · exact fun i x hx => absurd hx List.not_mem_nil

namespace Sample

/-- Maps are visited in the order their entries are kept in. -/
def inPlace : CacheOrder ℕ := ⟨id, fun _ => List.Perm.refl _⟩

/-- A call at time zero, for an entry that lasts. -/
def put (key : String) (cost : ℤ) : CacheCall ℕ := .set key 0 1000 cost 0 fun _ => inPlace

/-- The cost on the books of the shard of `key`, and what its entries cost. -/
def booksOf (key : String) (c : TtlCache ℕ) : ℤ × ℤ := ((c.shard key).cost, sumCosts (c.shard key).entries)

/-- Two keys of one shard, and the second is replaced by a dearer entry. -/
def regrown : List (CacheCall ℕ) := [put "k2" 5, put "k19" 5, put "k19" 8]

end Sample

open Sample in
/-- A budget of 10 for a shard. It holds entries of 5 and 8, and its books say 8. -/
theorem replaced_entry_evicted :
    booksOf "k19" (regrown.foldl TtlCache.exec (newTTLCache ℕ 320)) = (8, 13) ∧
      ¬(regrown.foldl TtlCache.exec (newTTLCache ℕ 320)).Exact := by
  have hbooks : booksOf "k19" (regrown.foldl TtlCache.exec (newTTLCache ℕ 320)) = (8, 13) := by decide +kernel
  refine ⟨hbooks, fun h => ?_⟩
  have hshard := (h (shardOf "k19")).1
  obtain ⟨hcost, hsum⟩ := Prod.mk.inj hbooks
  unfold TtlCache.shard at hcost hsum
  omega

open Sample in
/-- With a victim of another key the books stay right. -/
theorem cache_accounting_exact_other_victim :
    Along (fun c x => some (c.exec x)) TtlCache.Spares (newTTLCache ℕ 320) [put "k2" 5, put "k19" 5, put "k2" 8] ∧
      booksOf "k19" ([put "k2" 5, put "k19" 5, put "k2" 8].foldl TtlCache.exec (newTTLCache ℕ 320)) = (8, 8) ∧
      ([put "k2" 5, put "k19" 5, put "k2" 8].foldl TtlCache.exec (newTTLCache ℕ 320)).Exact := by
  have hspares : Along (fun c x => some (c.exec x)) TtlCache.Spares (newTTLCache ℕ 320) [put "k2" 5, put "k19" 5, put "k2" 8] := by
    refine ⟨?_, ?_, ?_, trivial⟩
    all_goals
      unfold TtlCache.Spares put
      decide +kernel
  exact ⟨hspares, by decide +kernel, (cache_accounting_exact_iff ℕ 320 _).mpr hspares _ (List.prefix_refl _)⟩

end Gate
